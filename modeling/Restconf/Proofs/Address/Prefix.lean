import Restconf.Proofs.Address.Tokens

set_option autoImplicit false

/-! # Paths that go on

A path is read from left to right, and the only thing that a segment hands on is its module. What
comes after a slash therefore neither changes what was read before it nor hides a fault there
(`readSegments_append`, `readPath_append_slash`), and every front part of a path that ends at a
slash is a path of its own (`parse?_append_slash`). -/

namespace Restconf.Address

open Text

/-! ## One row after the other -/

/-- The module in scope after some segments below a node of module `parent`. -/
def moduleAfter (parent : Option Identifier) (ss : List Segment) : Option Identifier :=
  ss.foldl (fun _ s => s.module?) parent

theorem moduleAfter_cons (parent : Option Identifier) (s : Segment) (ss : List Segment) :
    moduleAfter parent (s :: ss) = moduleAfter s.module? ss := rfl

/-- **A row of tokens is read first, with its own fault or its own segments, and what follows is
    read in the scope that these leave.** -/
theorem readSegments_append (parent : Option Identifier) (index : Nat)
    (tokens more : List (List Char)) :
    readSegments parent index (tokens ++ more) =
      (readSegments parent index tokens).bind fun ss =>
        (readSegments (moduleAfter parent ss) (index + ss.length) more).map (ss ++ ·) := by
  induction tokens generalizing parent index with
  | nil =>
      have hnil : ∀ i, readSegments parent i [] = .ok [] := fun _ => rfl
      rw [List.nil_append, hnil]
      simp only [Except.bind, moduleAfter, List.foldl_nil, List.length_nil, Nat.add_zero]
      cases readSegments parent index more <;> rfl
  | cons token tokens ih =>
      rw [List.cons_append, readSegments, readSegments]
      by_cases hempty : token.isEmpty = true
      · rw [if_pos hempty, if_pos hempty]
        rfl
      · rw [if_neg hempty, if_neg hempty]
        cases readSegment parent token with
        | error fault => rfl
        | ok s =>
            simp only [ih]
            cases readSegments s.module? (index + 1) tokens with
            | error fault => rfl
            | ok ss =>
                have hindex : index + 1 + ss.length = index + (s :: ss).length := by
                  rw [List.length_cons]
                  omega
                simp only [Except.bind, Except.map, moduleAfter_cons, hindex]
                cases readSegments (moduleAfter s.module? ss) (index + (s :: ss).length) more <;>
                  rfl

/-! ## Paths and what follows them -/

/-- **A path that is neither empty nor a single slash is read before what follows it.** -/
theorem readPath_append_slash {cs : List Char} (hempty : cs ≠ []) (hroot : cs ≠ ['/'])
    (more : List Char) :
    readPath (cs ++ '/' :: more) =
      (readPath cs).bind fun ss =>
        (readSegments (moduleAfter none ss) ss.length (more.splitOn '/')).map (ss ++ ·) := by
  obtain ⟨c, body, rfl⟩ := List.exists_cons_of_ne_nil hempty
  by_cases hc : c = '/'
  · subst hc
    have hbody : body ≠ [] := fun h => hroot (by rw [h])
    rw [List.cons_append, readPath_cons (by simp), readPath_cons hbody, splitOn_append_cons,
      readSegments_append]
    simp only [Nat.zero_add]
  · have hrelative : ∀ rest, readPath (c :: rest) = .error .notAbsolute := by
      intro rest
      unfold readPath
      split
      · next heq => exact absurd heq (by simp)
      · next heq => exact absurd (List.cons.inj heq).1 hc
      · next heq => exact absurd (List.cons.inj heq).1 hc
      · rfl
    rw [List.cons_append, hrelative, hrelative]
    rfl

/-! ## Refused paths -/

theorem parse?_eq_error_iff {input : String} {e : Error} :
    parse? input = .error e ↔
      ∃ fault, readPath input.toList = .error fault ∧ e = ⟨input, fault⟩ := by
  unfold parse?
  cases readPath input.toList <;> simp [eq_comm]

/-- A refused path holds its error and nothing else. -/
theorem parse_of_parse?_error {input : String} {e : Error} (h : parse? input = .error e) :
    parse input = rejected input e.fault ∧ e.input = input := by
  obtain ⟨fault, hread, rfl⟩ := parse?_eq_error_iff.1 h
  rw [parse, hread]
  exact ⟨rfl, rfl⟩

theorem toList_append_slash (p q : String) :
    (p ++ "/" ++ q).toList = p.toList ++ '/' :: q.toList := by
  simp

/-- The fault of a path stays whatever follows. -/
theorem parse?_append_slash_error {p : String} {e : Error} (h : parse? p = .error e) (q : String) :
    parse? (p ++ "/" ++ q) = .error ⟨p ++ "/" ++ q, e.fault⟩ := by
  obtain ⟨fault, hread, rfl⟩ := parse?_eq_error_iff.1 h
  have hempty : p.toList ≠ [] := by
    intro hnil
    rw [hnil] at hread
    exact absurd hread (by simp [readPath])
  have hroot : p.toList ≠ ['/'] := by
    intro hslash
    rw [hslash] at hread
    exact absurd hread (by simp [readPath])
  refine parse?_eq_error_iff.2 ⟨fault, ?_, rfl⟩
  rw [toList_append_slash, readPath_append_slash hempty hroot, hread]
  rfl

/-- The segments of a path stay whatever follows. -/
theorem take_segments_append_slash {p q : String} {a b : Address} (ha : parse? p = .ok a)
    (hroot : p ≠ "/") (hb : parse? (p ++ "/" ++ q) = .ok b) :
    b.segments.take a.depth = a.segments := by
  obtain ⟨ss, hread, rfl⟩ := parse?_eq_ok_iff.1 ha
  obtain ⟨ss', hread', rfl⟩ := parse?_eq_ok_iff.1 hb
  by_cases hempty : p.toList = []
  · rw [hempty] at hread
    rw [← Except.ok.inj hread]
    rfl
  · have hslash : p.toList ≠ ['/'] := fun h => hroot (String.toList_inj.1 h)
    rw [toList_append_slash, readPath_append_slash hempty hslash, hread, Except.bind] at hread'
    obtain ⟨more, -, rfl⟩ := Except.map_eq_ok_iff.1 hread'
    exact List.take_left

/-! ## Front parts -/

/-- A path of these texts, each after a slash. -/
def joined (tokens : List String) : String :=
  String.ofList (tokens.flatMap fun t => '/' :: t.toList)

theorem joined_append_cons (front : List String) (t : String) (rest : List String) :
    joined (front ++ t :: rest) = joined front ++ "/" ++ (t ++ joined rest) := by
  rw [← String.toList_inj, toList_append_slash]
  simp [joined]

/-- A front part of a path that is read is read too. -/
theorem exists_parse?_joined_take {tokens : List String} {b : Address}
    (h : parse? (joined tokens) = .ok b) (k : Nat) :
    ∃ a, parse? (joined (tokens.take k)) = .ok a := by
  cases hfront : parse? (joined (tokens.take k)) with
  | ok a => exact ⟨a, rfl⟩
  | error e =>
      cases hrest : tokens.drop k with
      | nil =>
          have hall : tokens.take k = tokens :=
            List.take_of_length_le (List.drop_eq_nil_iff.1 hrest)
          rw [hall, h] at hfront
          exact absurd hfront (by simp)
      | cons t rest =>
          have hfault := parse?_append_slash_error hfront (t ++ joined rest)
          rw [← joined_append_cons, ← hrest, List.take_append_drop, h] at hfault
          exact absurd hfault (by simp)

/-- **A refused path is refused for the same fault whatever follows after a slash. A path that is
    read, other than the single slash, keeps its segments, and all front parts of a path are paths.
    A refused path has no segments and no modules, and its error holds the whole text.** -/
theorem parse?_append_slash :
    (∀ (p q : String) (e : Error), parse? p = .error e →
      parse? (p ++ "/" ++ q) = .error ⟨p ++ "/" ++ q, e.fault⟩) ∧
    (∀ (p q : String) (a b : Address), parse? p = .ok a → p ≠ "/" →
      parse? (p ++ "/" ++ q) = .ok b → b.segments.take a.depth = a.segments) ∧
    (∀ (tokens : List String) (b : Address), parse? (joined tokens) = .ok b →
      ∀ k, ∃ a, parse? (joined (tokens.take k)) = .ok a) ∧
    ∀ (p : String) (e : Error), parse? p = .error e →
      (parse p).segments = [] ∧ (parse p).formsByModule = [] ∧
        (parse p).error? = some e ∧ e.input = p := by
  refine ⟨fun p q e h => parse?_append_slash_error h q,
    fun p q a b ha hroot hb => take_segments_append_slash ha hroot hb,
    fun tokens b h k => exists_parse?_joined_take h k, ?_⟩
  intro p e h
  obtain ⟨hparse, hinput⟩ := parse_of_parse?_error h
  rw [hparse]
  exact ⟨rfl, rfl, congrArg some (by rw [← hinput]), hinput⟩

theorem parse?_append_slash_switchedModule :
    parse? "/m:a/b=" = .error ⟨"/m:a/b=", .badListInstance "b=" .noKeys⟩ ∧
    parse? "/m:a/b=/c//d" = .error ⟨"/m:a/b=/c//d", .badListInstance "b=" .noKeys⟩ ∧
    (parse "/m:a/b=").segments = [] ∧
    ∃ a b : Address, parse? "/m:a/b='1'" = .ok a ∧ parse? "/m:a/b='1'/n:c" = .ok b ∧
      b.segments.take a.depth = a.segments ∧
      ∃ front, parse? (joined ["m:a", "b='1'"]) = .ok front := by
  obtain ⟨hfault, hsegments, hfront, hrefused⟩ := parse?_append_slash
  have herror : parse? "/m:a/b=" = .error ⟨"/m:a/b=", .badListInstance "b=" .noKeys⟩ := by
    decide +kernel
  have ha : parse? "/m:a/b='1'" = .ok (parse "/m:a/b='1'") :=
    parse?_of_isValid (by decide +kernel)
  have hb : parse? "/m:a/b='1'/n:c" = .ok (parse "/m:a/b='1'/n:c") :=
    parse?_of_isValid (by decide +kernel)
  refine ⟨herror, hfault "/m:a/b=" "c//d" _ herror, (hrefused _ _ herror).1, _, _, ha, hb, ?_, ?_⟩
  · exact hsegments "/m:a/b='1'" "n:c" _ _ ha (by decide) hb
  · exact hfront ["m:a", "b='1'", "n:c"] _ hb 2

end Restconf.Address
