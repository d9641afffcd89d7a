import Restconf.Proofs.Text.Cut
import Restconf.Text.Case
import Restconf.Url

set_option autoImplicit false

/-! # Laws of request targets

A path never holds what ends a path or a query (`not_mem_path_split`), and a target that is a path
alone is not taken apart (`split_of_path`). With a host in front, or a scheme and a host, just these
are cut off (`split_spellings`): a colon starts no scheme after a slash or before a port, and the
host ends at the first slash. `below?_eq_some_iff` says what lies below an entry point. -/

namespace Restconf.Url

open Text

/-! ## What a path is made of -/

theorem mem_of_mem_splitScheme {c : Char} {target : List Char} (h : c ∈ (splitScheme target).2) :
    c ∈ target := by
  unfold splitScheme at h
  split at h
  · exact h
  · next candidate rest hcut =>
      split at h
      · rw [(cut?_eq_some_iff.1 hcut).1]
        exact List.mem_append_right _ (List.mem_cons_of_mem _ h)
      · exact h

theorem mem_of_mem_splitHost {c : Char} {cs : List Char} (h : c ∈ (splitHost cs).2) : c ∈ cs :=
  (List.dropWhile_suffix _).subset h

theorem mem_of_mem_splitAuthority {c : Char} {hasScheme : Bool} {rest : List Char}
    (h : c ∈ (splitAuthority hasScheme rest).2) : c ∈ rest := by
  unfold splitAuthority at h
  split at h
  · next authority hslashes =>
      have hrest : rest = '/' :: '/' :: authority := by
        unfold afterSlashes? at hslashes
        split at hslashes
        · rw [Option.some.inj hslashes]
        · exact absurd hslashes (by simp)
      rw [hrest]
      exact List.mem_cons_of_mem _ (List.mem_cons_of_mem _ (mem_of_mem_splitHost h))
  · split at h
    · exact mem_of_mem_splitHost h
    · exact h

/-- The part of a URL before the query. -/
theorem not_mem_before_query (cs : List Char) : '?' ∉ ((cut? '?' cs).getD (cs, [])).1 := by
  cases h : cut? '?' cs with
  | none => exact cut?_eq_none_iff.1 h
  | some parts => exact (cut?_eq_some_iff.1 h).2

theorem mem_of_mem_before_query {c : Char} {cs : List Char}
    (h : c ∈ ((cut? '?' cs).getD (cs, [])).1) : c ∈ cs := by
  cases hcut : cut? '?' cs with
  | none => simpa [hcut] using h
  | some parts =>
      rw [hcut] at h
      rw [(cut?_eq_some_iff.1 hcut).1]
      exact List.mem_append_left _ h

/-- **No path of a URL holds a character that ends it.** -/
theorem not_mem_path_split {c : Char} (h : c = '?' ∨ c = '#') (url : List Char) :
    c ∉ (split url).path := by
  intro hc
  have htarget := mem_of_mem_splitScheme (mem_of_mem_splitAuthority hc)
  rcases h with rfl | rfl
  · exact not_mem_before_query _ htarget
  · exact not_mem_before _ _ (mem_of_mem_before_query htarget)

/-! ## Target and query -/

/-- The target of a URL, from which scheme, host and path are cut, and its query. -/
def targetAndQuery (url : List Char) : List Char × List Char :=
  (cut? '?' (before '#' url)).getD (before '#' url, [])

/-- The parts of a target, with a query. -/
def ofTarget (target query : List Char) : Url :=
  let (scheme, rest) := splitScheme target
  let (host, path) := splitAuthority scheme.isSome rest
  ⟨scheme, host, path, query⟩

theorem split_eq_ofTarget (url : List Char) :
    split url = ofTarget (targetAndQuery url).1 (targetAndQuery url).2 :=
  rfl

/-- What stands in front of a URL and ends no part of it belongs to the target. -/
theorem targetAndQuery_append {a : List Char} (hquery : '?' ∉ a) (hfragment : '#' ∉ a)
    (b : List Char) :
    targetAndQuery (a ++ b) = (a ++ (targetAndQuery b).1, (targetAndQuery b).2) := by
  rw [targetAndQuery, before_append hfragment, cut?_append hquery, targetAndQuery]
  cases cut? '?' (before '#' b) <;> rfl

theorem targetAndQuery_nil : targetAndQuery [] = ([], []) := rfl

/-- The target is a front part of the URL. -/
theorem target_prefix (url : List Char) : (targetAndQuery url).1 <+: url := by
  have hbefore : before '#' url <+: url := List.takeWhile_prefix _
  unfold targetAndQuery
  cases hcut : cut? '?' (before '#' url) with
  | none => exact hbefore
  | some parts =>
      refine List.IsPrefix.trans ?_ hbefore
      rw [(cut?_eq_some_iff.1 hcut).1]
      exact List.prefix_append _ _

/-- A question mark ends the target. -/
theorem targetAndQuery_append_query {target query : List Char} (hquery : '?' ∉ target)
    (hfragment : '#' ∉ target) (hfragment' : '#' ∉ query) :
    targetAndQuery (target ++ '?' :: query) = (target, query) := by
  have hmark : targetAndQuery ('?' :: query) = ([], query) := by
    have hself : before '#' ('?' :: query) = '?' :: query :=
      before_eq_self (by simpa using hfragment')
    rw [targetAndQuery, hself]
    rfl
  rw [targetAndQuery_append hquery hfragment, hmark, List.append_nil]

/-! ## The parts of a target -/

theorem isScheme_of_slash {candidate : List Char} (h : '/' ∈ candidate) :
    isScheme candidate = false := by
  cases candidate with
  | nil => rfl
  | cons c cs =>
      have hall : ((c :: cs).all fun x => x.isAlphanum || x = '+' || x = '-' || x = '.') = false :=
        List.all_eq_false.2 ⟨'/', h, by decide⟩
      simp only [isScheme, hall, Bool.and_false]

/-- A colon that no scheme stands before, or a port after, starts nothing. -/
theorem splitScheme_eq_none {target : List Char}
    (h : ∀ candidate rest, cut? ':' target = some (candidate, rest) →
      '/' ∈ candidate ∨ opensPort rest = true) : splitScheme target = (none, target) := by
  unfold splitScheme
  split
  · rfl
  · next candidate rest hcut =>
      rcases h candidate rest hcut with hslash | hport
      · simp [isScheme_of_slash hslash]
      · simp [hport]

/-- What stands before a colon after a slash is no scheme. -/
theorem mem_of_cut?_slash {rest candidate after : List Char}
    (h : cut? ':' ('/' :: rest) = some (candidate, after)) : '/' ∈ candidate := by
  obtain ⟨heq, -⟩ := cut?_eq_some_iff.1 h
  cases candidate with
  | nil => exact absurd (List.cons.inj heq).1 (by decide)
  | cons c candidate =>
      rw [← (List.cons.inj heq).1]
      exact List.mem_cons_self

theorem splitScheme_slash (rest : List Char) : splitScheme ('/' :: rest) = (none, '/' :: rest) :=
  splitScheme_eq_none fun _ _ hcut => Or.inl (mem_of_cut?_slash hcut)

theorem splitHost_append {host : List Char} (hne : host ≠ []) (hslash : '/' ∉ host)
    (rest : List Char) : splitHost (host ++ '/' :: rest) = (some host, '/' :: rest) := by
  obtain ⟨hbefore, hdrop⟩ := (before_eq_and_dropWhile_eq_iff hslash).2
    ⟨(rfl : host ++ '/' :: rest = _), Or.inr ⟨rest, rfl⟩⟩
  rw [splitHost, hbefore, hdrop]
  simp [hne]

/-- A target that opens with one slash is a path. -/
theorem ofTarget_path {rest : List Char} (h : rest.head? ≠ some '/') (query : List Char) :
    ofTarget ('/' :: rest) query = ⟨none, none, '/' :: rest, query⟩ := by
  have hslashes : afterSlashes? ('/' :: rest) = none := by
    unfold afterSlashes?
    split
    · next heq =>
        rw [(List.cons.inj heq).2] at h
        exact absurd rfl h
    · rfl
  simp [ofTarget, splitScheme_slash, splitAuthority, hslashes]

/-- A target that opens with two slashes has a host and no scheme. -/
theorem ofTarget_slashes {host : List Char} (hne : host ≠ []) (hslash : '/' ∉ host)
    (rest query : List Char) :
    ofTarget ('/' :: '/' :: (host ++ '/' :: rest)) query =
      ⟨none, some host, '/' :: rest, query⟩ := by
  simp [ofTarget, splitScheme_slash, splitAuthority, afterSlashes?, splitHost_append hne hslash]

theorem not_mem_of_isScheme {scheme : List Char} {c : Char} (h : isScheme scheme = true)
    (hc : (c.isAlphanum || c = '+' || c = '-' || c = '.') = false) : c ∉ scheme := by
  intro hmem
  cases scheme with
  | nil => exact absurd hmem List.not_mem_nil
  | cons d scheme =>
      simp only [isScheme, Bool.and_eq_true] at h
      rw [List.all_eq_true.1 h.2 c hmem] at hc
      exact absurd hc (by simp)

/-- Letters are a scheme in any case. -/
theorem isScheme_of_lower {scheme : List Char} (hne : scheme ≠ [])
    (h : ∀ c ∈ scheme.map Char.toLower, c.isAlpha = true) : isScheme scheme = true := by
  have halpha : ∀ c ∈ scheme, c.isAlpha = true := by
    intro c hc
    exact isAlpha_of_isAlpha_toLower (h _ (List.mem_map_of_mem hc))
  cases scheme with
  | nil => exact absurd rfl hne
  | cons c scheme =>
      rw [isScheme, halpha c List.mem_cons_self, Bool.true_and, List.all_eq_true]
      intro d hd
      simp [Char.isAlphanum, halpha d hd]

/-- A target with a scheme and two slashes has a host. -/
theorem ofTarget_scheme {scheme host : List Char} (hscheme : isScheme scheme = true)
    (hne : host ≠ []) (hslash : '/' ∉ host) (rest query : List Char) :
    ofTarget (scheme ++ ':' :: '/' :: '/' :: (host ++ '/' :: rest)) query =
      ⟨some scheme, some host, '/' :: rest, query⟩ := by
  have hcut : cut? ':' (scheme ++ ':' :: '/' :: '/' :: (host ++ '/' :: rest)) =
      some (scheme, '/' :: '/' :: (host ++ '/' :: rest)) :=
    cut?_eq_some_iff.2 ⟨rfl, not_mem_of_isScheme hscheme (by decide)⟩
  have hsplit : splitScheme (scheme ++ ':' :: '/' :: '/' :: (host ++ '/' :: rest)) =
      (some scheme, '/' :: '/' :: (host ++ '/' :: rest)) := by
    simp only [splitScheme, hcut, hscheme, opensPort]
    rfl
  simp [ofTarget, hsplit, splitAuthority, afterSlashes?, splitHost_append hne hslash]

/-- The host may come without slashes if its first colon starts a port. -/
def OpensBare (host : List Char) : Prop :=
  ':' ∉ host ∨ ∃ name d port, host = name ++ ':' :: d :: port ∧ ':' ∉ name ∧ d.isDigit = true

/-- A target that opens with a host has no scheme. -/
theorem ofTarget_host {host : List Char} (hne : host ≠ []) (hslash : '/' ∉ host)
    (hbare : OpensBare host) (rest query : List Char) :
    ofTarget (host ++ '/' :: rest) query = ⟨none, some host, '/' :: rest, query⟩ := by
  have hsplit : splitScheme (host ++ '/' :: rest) = (none, host ++ '/' :: rest) := by
    refine splitScheme_eq_none fun candidate after hcut => ?_
    rcases hbare with hcolon | ⟨name, d, port, rfl, hname, hd⟩
    · -- the first colon comes after the slash that ends the host
      rw [cut?_append hcolon, Option.map_eq_some_iff] at hcut
      obtain ⟨⟨front, after'⟩, hfront, heq⟩ := hcut
      obtain ⟨rfl, rfl⟩ := Prod.mk.inj heq
      exact Or.inl (List.mem_append_right _ (mem_of_cut?_slash hfront))
    · rw [List.append_assoc, List.cons_append, cut?_eq_some_iff.2 ⟨rfl, hname⟩] at hcut
      obtain ⟨rfl, rfl⟩ := Prod.mk.inj (Option.some.inj hcut)
      exact Or.inr hd
  have hhead : (host ++ '/' :: rest).head? ≠ some '/' := by
    cases host with
    | nil => exact absurd rfl hne
    | cons c host => simpa using fun e : c = '/' => hslash (e ▸ List.mem_cons_self)
  have hslashes : afterSlashes? (host ++ '/' :: rest) = none := by
    unfold afterSlashes?
    split
    · next heq => exact absurd (by rw [heq]; rfl) hhead
    · rfl
  have hauthority : splitAuthority false (host ++ '/' :: rest) = (some host, '/' :: rest) := by
    simp only [splitAuthority, hslashes]
    rw [if_pos (by simpa only [Bool.not_false, Bool.true_and] using decide_eq_true hhead),
      splitHost_append hne hslash]
  simp only [ofTarget, hsplit, Option.isSome_none, hauthority]

/-- A path without question mark and fragment stays whole, and what follows a question mark is its
    query. -/
theorem split_of_path {rest : List Char} (hhead : rest.head? ≠ some '/')
    (hquery : '?' ∉ '/' :: rest) (hfragment : '#' ∉ '/' :: rest) :
    split ('/' :: rest) = ⟨none, none, '/' :: rest, []⟩ ∧
      ∀ query, '#' ∉ query →
        split ('/' :: rest ++ '?' :: query) = ⟨none, none, '/' :: rest, query⟩ := by
  refine ⟨?_, fun query hfragment' => ?_⟩
  · have hall := targetAndQuery_append hquery hfragment []
    rw [targetAndQuery_nil, List.append_nil] at hall
    rw [split_eq_ofTarget, hall, ofTarget_path hhead]
  · rw [split_eq_ofTarget, targetAndQuery_append_query hquery hfragment hfragment',
      ofTarget_path hhead]

/-! ## Spellings of one path -/

/-- What stands in front of a URL is taken apart together with its target. -/
theorem split_append {front : List Char} (hquery : '?' ∉ front) (hfragment : '#' ∉ front)
    (url : List Char) :
    split (front ++ url) = ofTarget (front ++ (targetAndQuery url).1) (targetAndQuery url).2 := by
  rw [split_eq_ofTarget, targetAndQuery_append hquery hfragment]

/-- The target of a path opens with one slash if the path does. -/
theorem exists_target_of_slash {rest : List Char} (h : rest.head? ≠ some '/') :
    ∃ more, (targetAndQuery ('/' :: rest)).1 = '/' :: more ∧ more.head? ≠ some '/' := by
  have happend := targetAndQuery_append (a := ['/']) (by decide) (by decide) rest
  refine ⟨(targetAndQuery rest).1, by simpa using congrArg Prod.fst happend, ?_⟩
  intro hhead
  obtain ⟨tail, htail⟩ := target_prefix rest
  rw [← htail, List.head?_append, hhead] at h
  exact h rfl

/-- **A path is read alike with a host in front, and with a scheme and a host.** -/
theorem split_spellings {rest host : List Char} (hrest : rest.head? ≠ some '/') (hne : host ≠ [])
    (hhost : ∀ c ∈ host, c ≠ '/' ∧ c ≠ '?' ∧ c ≠ '#') :
    ∃ path query, split ('/' :: rest) = ⟨none, none, path, query⟩ ∧
      (∀ scheme, isScheme scheme = true →
        split (scheme ++ ':' :: '/' :: '/' :: host ++ '/' :: rest) =
          ⟨some scheme, some host, path, query⟩) ∧
      split ('/' :: '/' :: host ++ '/' :: rest) = ⟨none, some host, path, query⟩ ∧
      (OpensBare host → split (host ++ '/' :: rest) = ⟨none, some host, path, query⟩) := by
  have hslash : '/' ∉ host := fun hc => (hhost _ hc).1 rfl
  have hquery : '?' ∉ host := fun hc => (hhost _ hc).2.1 rfl
  have hfragment : '#' ∉ host := fun hc => (hhost _ hc).2.2 rfl
  obtain ⟨more, htarget, hmore⟩ := exists_target_of_slash hrest
  refine ⟨'/' :: more, (targetAndQuery ('/' :: rest)).2, ?_, ?_, ?_, ?_⟩
  · rw [split_eq_ofTarget, htarget, ofTarget_path hmore]
  · intro scheme hscheme
    have hquery' : '?' ∉ scheme := not_mem_of_isScheme hscheme (by decide)
    have hfragment' : '#' ∉ scheme := not_mem_of_isScheme hscheme (by decide)
    rw [split_append (by simp [hquery, hquery']) (by simp [hfragment, hfragment']), htarget]
    simpa using ofTarget_scheme hscheme hne hslash more _
  · rw [split_append (by simp [hquery]) (by simp [hfragment]), htarget]
    simpa using ofTarget_slashes hne hslash more _
  · intro hbare
    rw [split_append hquery hfragment, htarget, ofTarget_host hne hslash hbare]

/-! ## Below an entry point -/

/-- A path segment ends where the text starts: there is nothing, or a slash. -/
def AtBoundary (rest : List Char) : Prop :=
  rest = [] ∨ ∃ more, rest = '/' :: more

/-- The path that leads to an entry point. -/
def rootOf (entryPoint : List Char) : List Char :=
  if entryPoint.isEmpty then [] else '/' :: entryPoint

/-- **What lies below an entry point is the path, or what follows the entry point and is empty or
    opens with a slash.** -/
theorem below?_eq_some_iff {entryPoint path rest : List Char} :
    below? entryPoint path = some rest ↔
      (entryPoint = [] ∧ path = rest) ∨
      (entryPoint ≠ [] ∧ path = '/' :: entryPoint ++ rest ∧ AtBoundary rest) := by
  unfold below?
  cases entryPoint with
  | nil => simp
  | cons e entryPoint =>
      simp only [List.isEmpty_cons, Bool.false_eq_true, if_false, reduceCtorEq, false_and,
        false_or, ne_eq, not_false_eq_true, true_and]
      constructor
      · intro h
        split at h
        · next hp =>
            rw [List.isPrefixOf?_eq_some_iff_append_eq] at hp
            obtain rfl := Option.some.inj h
            exact ⟨hp.symm, Or.inl rfl⟩
        · next more hp =>
            rw [List.isPrefixOf?_eq_some_iff_append_eq] at hp
            obtain rfl := Option.some.inj h
            exact ⟨hp.symm, Or.inr ⟨more, rfl⟩⟩
        · exact absurd h (by simp)
      · rintro ⟨rfl, rfl | ⟨more, rfl⟩⟩
        · rw [List.isPrefixOf?_eq_some_iff_append_eq.2 rfl]
        · rw [List.isPrefixOf?_eq_some_iff_append_eq.2 rfl]
          rfl

/-- At a boundary, what lies below an entry point is what follows the path to it. -/
theorem below?_eq_some_iff_of_atBoundary {entryPoint path rest : List Char}
    (hrest : AtBoundary rest) :
    below? entryPoint path = some rest ↔ path = rootOf entryPoint ++ rest := by
  rw [below?_eq_some_iff]
  cases entryPoint with
  | nil => simp [rootOf]
  | cons e entryPoint => simp [rootOf, hrest]

/-- A path lies outside an entry point if that is not empty and no boundary follows it. -/
theorem below?_eq_none_iff {entryPoint path : List Char} :
    below? entryPoint path = none ↔
      entryPoint ≠ [] ∧ ∀ rest, AtBoundary rest → path ≠ rootOf entryPoint ++ rest := by
  constructor
  · intro h
    refine ⟨?_, ?_⟩
    · rintro rfl
      exact absurd h (by simp [below?])
    · intro rest hrest hpath
      rw [(below?_eq_some_iff_of_atBoundary hrest).2 hpath] at h
      exact absurd h (by simp)
  · rintro ⟨hne, h⟩
    rw [Option.eq_none_iff_forall_ne_some]
    intro rest hbelow
    rcases below?_eq_some_iff.1 hbelow with ⟨hempty, -⟩ | ⟨-, -, hrest⟩
    · exact hne hempty
    · exact h rest hrest ((below?_eq_some_iff_of_atBoundary hrest).1 hbelow)

end Restconf.Url
