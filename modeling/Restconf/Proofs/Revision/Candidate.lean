import Restconf.Proofs.Revision.Uuid
import Restconf.Revision.EntityTag

set_option autoImplicit false

/-! # Candidates in headers

A header of a conditional request lists candidates. Each is a star, which stands for every tag, or a
tag: its UUID in any letter case, in quotes or bare, possibly marked as weak, with any blanks around
it. Such a candidate names the tag it was made of and no other (`isNamedByWith_chars_iff`). Commas
only divide: what a header lists is what the texts between them list (`isListedInWith_intercalate`),
so a tag is listed just if one of the candidates is a star or the tag (`isListedIn_candidates_iff`).

How UUIDs are read is left open (`Uuid.Reads`): from their hyphenated form in any letter case, and
not from the empty text. -/

namespace Restconf.EntityTag

open Text

/-! ## Readers of UUIDs -/

/-- The UUID of a candidate, as `parse` reads it. -/
def candidateWith? (parse : List Char → Option Uuid) (cs : List Char) : Option Uuid :=
  parse (trim (· = '\x22') (dropWeak cs))

/-- The candidate is a star, or `parse` reads this tag from it. -/
def isNamedByWith (parse : List Char → Option Uuid) (t : EntityTag) (candidate : List Char) :
    Bool :=
  let cs := trimBlank candidate
  cs = ['*'] || candidateWith? parse cs = some t.uuid

/-- One of the candidates in the header names this tag, as `parse` reads them. -/
def isListedInWith (parse : List Char → Option Uuid) (t : EntityTag) (header : String) : Bool :=
  (header.toList.splitOn ',').any (t.isNamedByWith parse)

theorem isListedInWith_parse? (t : EntityTag) (header : String) :
    t.isListedInWith Uuid.parse? header = t.isListedIn header := rfl

variable {parse : List Char → Option Uuid}

/-! ## Candidates -/

/-- A way to write a tag. -/
structure Spelling (t : EntityTag) where
  weak : Bool
  quoted : Bool
  /-- The UUID, in any letter case. -/
  letters : List Char
  spells : t.uuid.Spells letters

namespace Spelling

variable {t : EntityTag}

/-- What stands on both sides of the UUID. -/
def quote (s : Spelling t) : List Char :=
  if s.quoted then ['\x22'] else []

/-- The UUID with its quotes, if it has any. -/
def body (s : Spelling t) : List Char :=
  s.quote ++ s.letters ++ s.quote

/-- The tag as it is written. -/
def chars (s : Spelling t) : List Char :=
  (if s.weak then ['W', '/'] else []) ++ s.body

end Spelling

/-- What stands between two commas, without the blanks around it. -/
inductive Candidate where
  | star
  | tag (t : EntityTag) (spelling : Spelling t)

/-- The characters of a candidate. -/
def Candidate.chars : Candidate → List Char
  | star => ['*']
  | tag _ spelling => spelling.chars

/-- The candidate is a star or the tag `t`. -/
def Candidate.Covers (t : EntityTag) : Candidate → Prop
  | star => True
  | tag u _ => u = t

/-- A candidate with blanks around it. -/
structure Item where
  candidate : Candidate
  front : List Char
  back : List Char
  front_blank : ∀ c ∈ front, isBlank c = true
  back_blank : ∀ c ∈ back, isBlank c = true

/-- The text between two commas. -/
def Item.chars (item : Item) : List Char :=
  item.front ++ item.candidate.chars ++ item.back

/-! ## Characters of candidates -/

/-- The characters of candidates. -/
def candidateAlphabet : List Char :=
  '*' :: 'W' :: '/' :: '\x22' :: Uuid.spellingAlphabet

theorem Spelling.mem_letters {t : EntityTag} (s : Spelling t) {c : Char} (h : c ∈ s.letters) :
    c ∈ Uuid.spellingAlphabet :=
  s.spells.mem_spellingAlphabet h

theorem Candidate.mem_chars {candidate : Candidate} {c : Char} (h : c ∈ candidate.chars) :
    c ∈ candidateAlphabet := by
  cases candidate with
  | star =>
      obtain rfl := List.mem_singleton.1 h
      decide
  | tag t s =>
      have hmark : ∀ c ∈ if s.weak then ['W', '/'] else [], c ∈ candidateAlphabet := by
        cases s.weak <;> simp [candidateAlphabet]
      have hquote : ∀ c ∈ s.quote, c ∈ candidateAlphabet := by
        unfold Spelling.quote
        cases s.quoted <;> simp [candidateAlphabet]
      have hletters : ∀ c ∈ s.letters, c ∈ candidateAlphabet :=
        fun c hc => List.mem_append_right ['*', 'W', '/', '\x22'] (s.mem_letters hc)
      simp only [chars, Spelling.chars, Spelling.body, List.mem_append] at h
      rcases h with h | (h | h) | h
      · exact hmark c h
      · exact hquote c h
      · exact hletters c h
      · exact hquote c h

theorem Candidate.isBlank_eq_false {candidate : Candidate} {c : Char} (h : c ∈ candidate.chars) :
    isBlank c = false := by
  have hall : candidateAlphabet.all (!isBlank ·) = true := by decide
  simpa using List.all_eq_true.1 hall c (mem_chars h)

theorem Candidate.chars_ne_nil (candidate : Candidate) : candidate.chars ≠ [] := by
  cases candidate with
  | star => simp [chars]
  | tag t s => simp [chars, Spelling.chars, Spelling.body, s.spells.ne_nil]

theorem Item.not_mem_chars (item : Item) : ',' ∉ item.chars := by
  have hblank : ∀ cs : List Char, (∀ c ∈ cs, isBlank c = true) → ',' ∉ cs := by
    intro cs h hc
    exact absurd (h _ hc) (by decide)
  have hcandidate : ',' ∉ item.candidate.chars :=
    fun h => absurd (Candidate.mem_chars h) (by decide)
  simp only [chars, List.mem_append, not_or]
  exact ⟨⟨hblank _ item.front_blank, hcandidate⟩, hblank _ item.back_blank⟩

/-! ## One candidate -/

theorem trimBlank_chars (item : Item) : trimBlank item.chars = item.candidate.chars :=
  trim_append item.candidate.chars_ne_nil item.front_blank item.back_blank
    (fun _ hc => Candidate.isBlank_eq_false (List.mem_of_head? hc))
    (fun _ hc => Candidate.isBlank_eq_false (List.mem_of_getLast? hc))

/-- Only a mark is taken for a mark: no UUID opens with its letter. -/
theorem dropWeak_chars {t : EntityTag} (s : Spelling t) : dropWeak s.chars = s.body := by
  unfold Spelling.chars
  cases s.weak with
  | true => rfl
  | false =>
      have hnot : 'W' ∉ s.body := by
        have hletters : 'W' ∉ s.letters := fun h => absurd (s.mem_letters h) (by decide)
        unfold Spelling.body Spelling.quote
        cases s.quoted with
        | true => simpa using hletters
        | false => simpa using hletters
      simp only [Bool.false_eq_true, if_false, List.nil_append]
      unfold dropWeak
      split
      · next h => exact absurd (h ▸ List.mem_cons_self) hnot
      · rfl

/-- A written tag holds a digit of its UUID, so it is no star. -/
theorem Spelling.chars_ne_star {t : EntityTag} (s : Spelling t) : s.chars ≠ ['*'] := by
  intro h
  obtain ⟨c, hc⟩ := List.exists_mem_of_ne_nil _ s.spells.ne_nil
  have hmem : c ∈ s.chars := by simp [chars, body, hc]
  rw [h, List.mem_singleton] at hmem
  have hstar : '*' ∉ Uuid.spellingAlphabet := by decide
  exact hstar (hmem ▸ s.mem_letters hc)

/-- The quotes are all that is trimmed of a written tag. -/
theorem candidateWith?_chars (h : Uuid.Reads parse) {t : EntityTag} (s : Spelling t) :
    candidateWith? parse s.chars = some t.uuid := by
  have hletters : ∀ c ∈ s.letters, decide (c = '\x22') = false := by
    have hnot : '\x22' ∉ Uuid.spellingAlphabet := by decide
    exact fun c hc => decide_eq_false fun heq => hnot (heq ▸ s.mem_letters hc)
  have hquote : ∀ c ∈ s.quote, decide (c = '\x22') = true := by
    unfold Spelling.quote
    cases s.quoted with
    | true => simp
    | false => simp
  have htrim : trim (· = '\x22') s.body = s.letters :=
    trim_append s.spells.ne_nil hquote hquote (fun c hc => hletters c (List.mem_of_head? hc))
      (fun c hc => hletters c (List.mem_of_getLast? hc))
  rw [candidateWith?, dropWeak_chars, htrim, h.spelled s.spells]

/-- A candidate names the tag it was made of and no other, and a star names every tag. -/
theorem isNamedByWith_chars_iff (h : Uuid.Reads parse) (t : EntityTag) (item : Item) :
    t.isNamedByWith parse item.chars = true ↔ item.candidate.Covers t := by
  rw [isNamedByWith, trimBlank_chars]
  cases item.candidate with
  | star => simp [Candidate.chars, Candidate.Covers]
  | tag u s =>
      have htag : u.uuid = t.uuid ↔ u = t := by
        cases t
        cases u
        simp
      simp only [Candidate.chars, Candidate.Covers, candidateWith?_chars h, s.chars_ne_star,
        Option.some.injEq, htag, decide_false, Bool.false_or, decide_eq_true_eq]

/-! ## Headers -/

/-- **A comma divides a header into two that are searched each by itself.** -/
theorem isListedInWith_append (t : EntityTag) (a b : String) :
    t.isListedInWith parse (a ++ "," ++ b) =
      (t.isListedInWith parse a || t.isListedInWith parse b) := by
  have hjoined : (a ++ "," ++ b).toList = a.toList ++ ',' :: b.toList := by simp
  rw [isListedInWith, hjoined, splitOn_append_cons, List.any_append, isListedInWith,
    isListedInWith]

/-- The empty header is one candidate of no characters. -/
theorem isListedInWith_empty (h : Uuid.Reads parse) (t : EntityTag) :
    t.isListedInWith parse "" = false := by
  have hnone : candidateWith? parse [] = none := h.nil
  have hnamed : t.isNamedByWith parse [] = false := by
    simp [isNamedByWith, trimBlank, trim, hnone]
  simp [isListedInWith, hnamed]

theorem isListedInWith_intercalate (h : Uuid.Reads parse) (t : EntityTag)
    (headers : List String) :
    t.isListedInWith parse (",".intercalate headers) = headers.any (t.isListedInWith parse) := by
  induction headers with
  | nil => exact isListedInWith_empty h t
  | cons header headers ih =>
      cases headers with
      | nil => simp
      | cons header' headers =>
          rw [String.intercalate_cons_cons, isListedInWith_append, ih]
          exact List.any_cons.symm

theorem isListedInWith_item_iff (h : Uuid.Reads parse) (t : EntityTag) (item : Item) :
    t.isListedInWith parse (String.ofList item.chars) = true ↔ item.candidate.Covers t := by
  have hsplit : item.chars.splitOn ',' = [item.chars] :=
    splitOn_eq_iff.2 ⟨List.cons_ne_nil _ _, by simp, by simpa using item.not_mem_chars⟩
  rw [isListedInWith, String.toList_ofList, hsplit, List.any_cons, List.any_nil, Bool.or_false,
    isNamedByWith_chars_iff h]

theorem isListedInWith_items_iff (h : Uuid.Reads parse) (t : EntityTag) (items : List Item) :
    t.isListedInWith parse (",".intercalate (items.map fun item => String.ofList item.chars)) =
        true ↔
      ∃ item ∈ items, item.candidate.Covers t := by
  rw [isListedInWith_intercalate h, List.any_map, List.any_eq_true]
  simp only [Function.comp_apply, isListedInWith_item_iff h]

theorem isListedIn_items_iff (t : EntityTag) (items : List Item) :
    t.isListedIn (",".intercalate (items.map fun item => String.ofList item.chars)) = true ↔
      ∃ item ∈ items, item.candidate.Covers t :=
  isListedInWith_items_iff Uuid.reads_parse? t items

/-- **A tag is listed in two headers joined by a comma if and only if it is listed in one of them,
    and in a list of candidates, each a star or a spelling of a tag with any blanks around it, if
    and only if one of them is a star or a spelling of this very tag. This holds whatever function
    reads the UUIDs, and `Uuid.parse?` is one that does.** -/
theorem isListedIn_candidates_iff (parse : List Char → Option Uuid) (h : Uuid.Reads parse)
    (t : EntityTag) :
    (∀ a b : String, t.isListedInWith parse (a ++ "," ++ b) =
      (t.isListedInWith parse a || t.isListedInWith parse b)) ∧
    (∀ items : List Item,
      t.isListedInWith parse (",".intercalate (items.map fun item => String.ofList item.chars)) =
          true ↔
        ∃ item ∈ items, item.candidate = .star ∨ ∃ s, item.candidate = .tag t s) ∧
    Uuid.Reads Uuid.parse? ∧
    ∀ header, t.isListedInWith Uuid.parse? header = t.isListedIn header := by
  refine ⟨isListedInWith_append t, fun items => ?_, Uuid.reads_parse?, isListedInWith_parse? t⟩
  rw [isListedInWith_items_iff h]
  refine exists_congr fun item => and_congr_right fun _ => ?_
  cases item.candidate with
  | star => simp [Candidate.Covers]
  | tag u s =>
      constructor
      · rintro rfl
        exact Or.inr ⟨s, rfl⟩
      · rintro (hstar | ⟨s', htag⟩)
        · exact absurd hstar (by simp)
        · exact (Candidate.tag.inj htag).1

theorem isListedIn_candidates_iff_upperCase :
    let header :=
      "\"00000000-0000-0000-0000-000000abcdee\" ,\tW/00000000-0000-0000-0000-000000ABCDEF"
    Uuid.Reads Uuid.parse? ∧ isListedIn ⟨.ofNat 0xabcdef⟩ header = true ∧
      isListedIn ⟨.ofNat 0xabcded⟩ header = false := by
  intro header
  let t : EntityTag := ⟨.ofNat 0xabcdef⟩
  let u : EntityTag := ⟨.ofNat 0xabcdee⟩
  let other : EntityTag := ⟨.ofNat 0xabcded⟩
  let upper : Spelling t :=
    ⟨true, false, "00000000-0000-0000-0000-000000ABCDEF".toList, by
      unfold Uuid.Spells
      decide⟩
  let quoted : Spelling u := ⟨false, true, u.uuid.render, u.uuid.spells_render⟩
  let items : List Item :=
    [⟨.tag u quoted, [], [' '], by simp, List.forall_mem_singleton.2 (by decide)⟩,
      ⟨.tag t upper, ['\t'], [], List.forall_mem_singleton.2 (by decide), by simp⟩]
  have hheader : ",".intercalate (items.map fun item => String.ofList item.chars) = header := by
    decide +kernel
  obtain ⟨-, hlisted, -, ht⟩ := isListedIn_candidates_iff Uuid.parse? Uuid.reads_parse? t
  obtain ⟨-, hlisted', -, hother⟩ := isListedIn_candidates_iff Uuid.parse? Uuid.reads_parse? other
  refine ⟨Uuid.reads_parse?, ?_, ?_⟩
  · rw [← ht, ← hheader]
    exact (hlisted items).2 ⟨_, List.mem_cons_of_mem _ List.mem_cons_self, Or.inr ⟨upper, rfl⟩⟩
  · rw [← hother, ← hheader, Bool.eq_false_iff]
    intro h
    obtain ⟨item, hitem, hcandidate⟩ := (hlisted' items).1 h
    simp only [items, List.mem_cons, List.not_mem_nil, or_false] at hitem
    rcases hitem with rfl | rfl
    · rcases hcandidate with hstar | ⟨s, hs⟩
      · cases hstar
      · exact absurd (Candidate.tag.inj hs).1 (by decide)
    · rcases hcandidate with hstar | ⟨s, hs⟩
      · cases hstar
      · exact absurd (Candidate.tag.inj hs).1 (by decide)

end Restconf.EntityTag
