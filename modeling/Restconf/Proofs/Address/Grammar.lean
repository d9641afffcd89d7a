import Restconf.Address.Reader
import Restconf.Proofs.ListInstance.Grammar
import Restconf.Proofs.Text.Cut

set_option autoImplicit false

/-! # The grammar of paths

A path is a row of tokens, each a module (or none), a name and the text of its keys (or none). What
a token leads to depends on the tokens before it, through the module in scope: `Resolves` relates
one token to its segment below a node of a given module, `Leads` a row of tokens to its segments.

`readSegment_eq_ok_iff`, `readSegments_eq_ok_iff` and `readPath_eq_ok_iff` say that the readers
compute exactly these relations, and `render_injective` that a text has one token at most.
`parse?_iff_isPath` is the grammar in full, with the module of each
segment found without any state: it is the last one that was written. -/

namespace Restconf

/-- A segment as it stands in a path. The module and the name are identifiers: a letter or
    underscore, and then letters, digits, underscores, hyphens and points
    (`Identifier.exists_chars_eq_iff`). -/
structure PathToken where
  module? : Option Identifier
  name : Identifier
  /-- What follows the first `=`; none if there is no `=`. -/
  raw? : Option (List Char)

namespace PathToken

/-- A name and its keys. -/
def localText (name : Identifier) : Option (List Char) → List Char
  | none => name.chars
  | some raw => name.chars ++ '=' :: raw

/-- The characters of the token. -/
def render (t : PathToken) : List Char :=
  match t.module? with
  | none => localText t.name t.raw?
  | some m => m.chars ++ ':' :: localText t.name t.raw?

/-- How the token comes by its module below a node of module `parent`. -/
def scope (parent : Option Identifier) (t : PathToken) : ModuleScope :=
  match t.module? with
  | none => .carry parent
  | some m => .written m

/-- The keys, if there are any, are those of a list entry. -/
def Accepted (t : PathToken) : Prop :=
  ∀ raw, t.raw? = some raw →
    ∃ entry, ListInstance.parse none (String.ofList (localText t.name (some raw))) = .ok entry

theorem render_none (name : Identifier) (raw? : Option (List Char)) :
    render ⟨none, name, raw?⟩ = localText name raw? := rfl

theorem render_some (m name : Identifier) (raw? : Option (List Char)) :
    render ⟨some m, name, raw?⟩ = m.chars ++ ':' :: localText name raw? := rfl

theorem module?_scope (parent : Option Identifier) (t : PathToken) :
    (t.scope parent).module? = t.module?.or parent := by
  unfold scope
  cases t.module? with
  | none => simp
  | some m => rfl

theorem render_ne_nil (t : PathToken) : t.render ≠ [] := by
  have hlocal : localText t.name t.raw? ≠ [] := by
    cases t.raw? with
    | none => exact t.name.chars_ne_nil
    | some raw => simp [localText]
  unfold render
  cases t.module? with
  | none => exact hlocal
  | some m => simp

/-- The `=` of a token is the one that its keys follow. -/
theorem mem_render_iff (t : PathToken) : '=' ∈ t.render ↔ t.raw?.isSome = true := by
  have hid : ∀ id : Identifier, '=' ∉ id.chars := fun _ => Identifier.not_mem_chars (by decide)
  unfold render
  cases t.module? <;> cases t.raw? <;> simp [localText, hid]

end PathToken

namespace Address

open Text
open PathToken (localText)

/-! ## One segment -/

/-- The segment that a name and its keys make in a scope. -/
inductive Fits (scope : ModuleScope) : Identifier → Option (List Char) → Segment → Prop
  | node {name : Identifier} : Fits scope name none (.node ⟨scope, name⟩)
  | list {name : Identifier} {raw : List Char} {keys : List Key} :
      Key.readAll raw = .ok keys → Fits scope name (some raw) (.list ⟨⟨scope, name⟩, keys⟩)

/-- The segment that a token leads to below a node of module `parent`. -/
def Resolves (parent : Option Identifier) (t : PathToken) (s : Segment) : Prop :=
  Fits (t.scope parent) t.name t.raw? s

theorem Fits.nodeName {scope : ModuleScope} {name : Identifier} {raw? : Option (List Char)}
    {s : Segment} (h : Fits scope name raw? s) : s.nodeName = ⟨scope, name⟩ := by
  cases h <;> rfl

theorem Resolves.module?_eq {parent : Option Identifier} {t : PathToken} {s : Segment}
    (h : Resolves parent t s) : s.module? = t.module?.or parent := by
  rw [Segment.module?, NodeName.module?, h.nodeName]
  exact t.module?_scope parent

theorem Resolves.name_eq {parent : Option Identifier} {t : PathToken} {s : Segment}
    (h : Resolves parent t s) : s.name = t.name := by
  rw [Segment.name, h.nodeName]

theorem Resolves.isQualified_iff {parent : Option Identifier} {t : PathToken} {s : Segment}
    (h : Resolves parent t s) : s.nodeName.isQualified = true ↔ t.module? ≠ none := by
  rw [h.nodeName, NodeName.isQualified, PathToken.scope]
  cases t.module? <;> cases parent <;> simp [ModuleScope.carry]

theorem Resolves.isList_eq {parent : Option Identifier} {t : PathToken} {s : Segment}
    (h : Resolves parent t s) : s.isList = t.raw?.isSome := by
  obtain ⟨module?, name, raw?⟩ := t
  cases h <;> rfl

theorem Resolves.keys_eq_nil {parent : Option Identifier} {t : PathToken} {s : Segment}
    (h : Resolves parent t s) (hraw : t.raw? = none) : s.keys = [] := by
  obtain ⟨module?, name, raw?⟩ := t
  cases h with
  | node => rfl
  | list _ => simp at hraw

theorem Resolves.keys_eq {parent : Option Identifier} {t : PathToken} {s : Segment}
    (h : Resolves parent t s) {raw : List Char} {keys : List Key} (hraw : t.raw? = some raw)
    (hk : Key.readAll raw = .ok keys) : s.keys = keys := by
  obtain ⟨module?, name, raw?⟩ := t
  cases h with
  | node => simp at hraw
  | list hk' =>
      obtain rfl := Option.some.inj hraw
      rw [hk, Except.ok.injEq] at hk'
      exact hk'.symm

theorem readLocal_eq_ok_iff {token rest : List Char} {scope : ModuleScope} {s : Segment} :
    readLocal token scope rest = .ok s ↔
      ∃ name raw?, rest = localText name raw? ∧ Fits scope name raw? s := by
  unfold readLocal
  constructor
  · intro h
    split at h
    · split at h
      · next entry hentry =>
          obtain ⟨raw, rfl, rfl, hk⟩ := ListInstance.read_eq_ok_iff.1 hentry
          rw [← Except.ok.inj h]
          exact ⟨entry.node.name, some raw, rfl, .list hk⟩
      · exact absurd h (by simp)
    · split at h
      · next name hname =>
          rw [← Except.ok.inj h]
          exact ⟨name, none, (Identifier.parse_ofList_eq_ok_iff.1 hname).symm, .node⟩
      · exact absurd h (by simp)
  · rintro ⟨name, raw?, rfl, hfit⟩
    cases hfit with
    | node =>
        have hname : '=' ∉ name.chars := Identifier.not_mem_chars (by decide)
        have heq : (localText name none).contains '=' = false := by simpa [localText] using hname
        simp only [heq, Bool.false_eq_true, if_false]
        rw [localText, Identifier.parse_ofList_chars]
    | @list raw keys hk =>
        have heq : (localText name (some raw)).contains '=' = true := by simp [localText]
        have hread : ListInstance.read scope (localText name (some raw)) =
            .ok ⟨⟨scope, name⟩, keys⟩ := ListInstance.read_eq_ok_iff.2 ⟨raw, rfl, rfl, hk⟩
        simp only [heq, if_true, hread]

/-- The part of a local text before its keys is the name. -/
theorem before_localText (name : Identifier) (raw? : Option (List Char)) :
    before '=' (localText name raw?) = name.chars := by
  have h : '=' ∉ name.chars := Identifier.not_mem_chars (by decide)
  cases raw? with
  | none => exact before_eq_self h
  | some raw => exact before_append_cons h raw

/-- The module of a token is in front of its first colon. -/
theorem cut?_before_render (t : PathToken) :
    cut? ':' (before '=' t.render) = t.module?.map fun m => (m.chars, t.name.chars) := by
  have hcolon : ∀ id : Identifier, ':' ∉ id.chars := fun _ => Identifier.not_mem_chars (by decide)
  obtain ⟨module?, name, raw?⟩ := t
  cases module? with
  | none =>
      rw [PathToken.render_none, before_localText]
      exact cut?_eq_none_iff.2 (hcolon name)
  | some m =>
      -- the part before the first `=` goes on past the prefix, up to the end of the name
      have hm : '=' ∉ m.chars := Identifier.not_mem_chars (by decide)
      have hfront : '=' ∉ m.chars ++ [':'] := by simpa using hm
      rw [PathToken.render_some, ← List.singleton_append, ← List.append_assoc,
        before_append hfront, before_localText, Option.map_some, cut?_eq_some_iff]
      exact ⟨by simp, hcolon m⟩

/-- The characters of a token are read as its name and keys, in the scope of the token. -/
theorem readSegment_render (parent : Option Identifier) (t : PathToken) :
    readSegment parent t.render =
      readLocal t.render (t.scope parent) (localText t.name t.raw?) := by
  rw [readSegment, cut?_before_render]
  obtain ⟨module?, name, raw?⟩ := t
  cases module? with
  | none => rfl
  | some m =>
      have hcolon : ':' ∉ name.chars := Identifier.not_mem_chars (by decide)
      have hname : name.chars.contains ':' = false := by simpa using hcolon
      have hdrop : (PathToken.render ⟨some m, name, raw?⟩).drop (m.chars.length + 1) =
          localText name raw? := by
        simp [PathToken.render]
      simp only [Option.map_some, hname, Bool.false_eq_true, if_false,
        Identifier.parse_ofList_chars, hdrop]
      rfl

/-- **A segment is read as what one of its tokens leads to.** -/
theorem readSegment_eq_ok_iff {parent : Option Identifier} {token : List Char} {s : Segment} :
    readSegment parent token = .ok s ↔ ∃ t : PathToken, token = t.render ∧ Resolves parent t s := by
  constructor
  · intro h
    unfold readSegment at h
    split at h
    · obtain ⟨name, raw?, rfl, hfit⟩ := readLocal_eq_ok_iff.1 h
      exact ⟨⟨none, name, raw?⟩, rfl, hfit⟩
    · next module afterColon hcut =>
        -- the colon was found in the part before the first `=`, but it splits the whole token
        obtain ⟨hbefore, -⟩ := cut?_eq_some_iff.1 hcut
        have htoken : token = module ++ ':' :: token.drop (module.length + 1) := by
          have hall := before_append_dropWhile '=' token
          rw [hbefore, List.append_assoc, List.cons_append] at hall
          rw [← hall]
          simp
        split at h
        · exact absurd h (by simp)
        · split at h
          · next m hm =>
              obtain ⟨name, raw?, hrest, hfit⟩ := readLocal_eq_ok_iff.1 h
              refine ⟨⟨some m, name, raw?⟩, ?_, hfit⟩
              rw [htoken, hrest, ← Identifier.parse_ofList_eq_ok_iff.1 hm]
              rfl
          · exact absurd h (by simp)
  · rintro ⟨t, rfl, hfit⟩
    rw [readSegment_render]
    exact readLocal_eq_ok_iff.2 ⟨t.name, t.raw?, rfl, hfit⟩

/-! ## One token for each text -/

theorem localText_inj {name name' : Identifier} {raw? raw?' : Option (List Char)}
    (h : localText name raw? = localText name' raw?') : name = name' ∧ raw? = raw?' := by
  have hname : name = name' := by
    have hbefore := congrArg (before '=') h
    rw [before_localText, before_localText] at hbefore
    exact Identifier.chars_injective hbefore
  subst hname
  refine ⟨rfl, ?_⟩
  cases raw? with
  | none =>
      cases raw?' with
      | none => rfl
      | some raw' => simp [localText] at h
  | some raw =>
      cases raw?' with
      | none => simp [localText] at h
      | some raw' => simpa [localText] using h

theorem render_injective : Function.Injective PathToken.render := by
  intro t t' h
  have hmodule := congrArg (fun cs => cut? ':' (before '=' cs)) h
  simp only [cut?_before_render] at hmodule
  obtain ⟨module?, name, raw?⟩ := t
  obtain ⟨module?', name', raw?'⟩ := t'
  cases module? with
  | none =>
      cases module?' with
      | none =>
          obtain ⟨rfl, rfl⟩ := localText_inj h
          rfl
      | some m' => simp at hmodule
  | some m =>
      cases module?' with
      | none => simp at hmodule
      | some m' =>
          simp only [Option.map_some, Option.some.injEq, Prod.mk.injEq] at hmodule
          obtain rfl := Identifier.chars_injective hmodule.1
          rw [PathToken.render_some, PathToken.render_some] at h
          obtain ⟨rfl, rfl⟩ := localText_inj (List.cons.inj (List.append_cancel_left h)).2
          rfl

/-! ## Rows of segments -/

/-- The segments that a row of tokens leads to; each hands its module on. -/
inductive Leads : Option Identifier → List PathToken → List Segment → Prop
  | nil {parent : Option Identifier} : Leads parent [] []
  | cons {parent : Option Identifier} {t : PathToken} {s : Segment} {ts : List PathToken}
      {ss : List Segment} :
      Resolves parent t s → Leads s.module? ts ss → Leads parent (t :: ts) (s :: ss)

theorem Leads.length_eq {parent : Option Identifier} {ts : List PathToken} {ss : List Segment}
    (h : Leads parent ts ss) : ss.length = ts.length := by
  induction h with
  | nil => rfl
  | cons _ _ ih => rw [List.length_cons, List.length_cons, ih]

/-- **A row of segments is read as what its tokens lead to.** -/
theorem readSegments_eq_ok_iff {parent : Option Identifier} {index : Nat}
    {tokens : List (List Char)} {ss : List Segment} :
    readSegments parent index tokens = .ok ss ↔
      ∃ ts : List PathToken, tokens = ts.map PathToken.render ∧ Leads parent ts ss := by
  constructor
  · intro h
    induction tokens generalizing parent index ss with
    | nil =>
        rw [readSegments, Except.ok.injEq] at h
        subst h
        exact ⟨[], rfl, .nil⟩
    | cons token tokens ih =>
        rw [readSegments] at h
        split at h
        · exact absurd h (by simp)
        · split at h
          · exact absurd h (by simp)
          · next s hs =>
              obtain ⟨t, rfl, ht⟩ := readSegment_eq_ok_iff.1 hs
              obtain ⟨ss', hread, rfl⟩ := Except.map_eq_ok_iff.1 h
              obtain ⟨ts, rfl, hts⟩ := ih hread
              exact ⟨t :: ts, rfl, .cons ht hts⟩
  · rintro ⟨ts, rfl, h⟩
    induction h generalizing index with
    | nil => rfl
    | @cons _ t s ts ss ht _ ih =>
        have hne : t.render.isEmpty = false := by simpa using t.render_ne_nil
        rw [List.map_cons, readSegments, readSegment_eq_ok_iff.2 ⟨t, rfl, ht⟩]
        simp only [hne, Bool.false_eq_true, if_false, ih, Except.map]

/-! ## Paths -/

/-- The characters of a row of tokens. -/
def renderTokens (ts : List PathToken) : List Char :=
  ts.flatMap fun t => '/' :: t.render

theorem renderTokens_eq_cons {ts : List PathToken} (h : ts ≠ []) :
    renderTokens ts = '/' :: ['/'].intercalate (ts.map PathToken.render) := by
  rw [← flatMap_cons_eq '/' (by simpa using h), renderTokens, List.flatMap_map]

theorem readPath_cons {body : List Char} (h : body ≠ []) :
    readPath ('/' :: body) = readSegments none 0 (body.splitOn '/') := by
  cases body with
  | nil => exact absurd rfl h
  | cons c body => rfl

/-- A row of tokens without slashes is read token by token. -/
theorem readPath_renderTokens {ts : List PathToken} (hne : ts ≠ [])
    (hslash : ∀ t ∈ ts, '/' ∉ t.render) :
    readPath (renderTokens ts) = readSegments none 0 (ts.map PathToken.render) := by
  have hsplit : (['/'].intercalate (ts.map PathToken.render)).splitOn '/' =
      ts.map PathToken.render := by
    refine splitOn_eq_iff.2 ⟨by simpa using hne, rfl, ?_⟩
    intro token htoken
    obtain ⟨t, ht, rfl⟩ := List.mem_map.1 htoken
    exact hslash t ht
  -- a path of tokens is neither empty nor a single slash, as no token is empty
  have hbody : ['/'].intercalate (ts.map PathToken.render) ≠ [] := by
    intro hnil
    rw [hnil, List.splitOn_nil] at hsplit
    obtain ⟨t, -, ht⟩ := List.mem_map.1 (hsplit ▸ List.mem_singleton_self [])
    exact t.render_ne_nil ht
  rw [renderTokens_eq_cons hne, readPath_cons hbody, hsplit]

/-- **A row of tokens without slashes is read as what these tokens, and no others, lead to.** -/
theorem readPath_renderTokens_eq_ok_iff {ts : List PathToken} {ss : List Segment} (hne : ts ≠ [])
    (hslash : ∀ t ∈ ts, '/' ∉ t.render) :
    readPath (renderTokens ts) = .ok ss ↔ Leads none ts ss := by
  rw [readPath_renderTokens hne hslash, readSegments_eq_ok_iff]
  constructor
  · rintro ⟨ts', hrows, h⟩
    rwa [List.map_injective_iff.2 render_injective hrows]
  · intro h
    exact ⟨ts, rfl, h⟩

/-- **A path is read as what its tokens lead to; the empty path and the single slash lead
    nowhere.** -/
theorem readPath_eq_ok_iff {cs : List Char} {ss : List Segment} :
    readPath cs = .ok ss ↔
      ((cs = [] ∨ cs = ['/']) ∧ ss = []) ∨
      ∃ ts, ts ≠ [] ∧ cs = renderTokens ts ∧ (∀ t ∈ ts, '/' ∉ t.render) ∧ Leads none ts ss := by
  constructor
  · intro h
    unfold readPath at h
    split at h
    · exact Or.inl ⟨Or.inl rfl, (Except.ok.inj h).symm⟩
    · exact Or.inl ⟨Or.inr rfl, (Except.ok.inj h).symm⟩
    · next body _ =>
        obtain ⟨ts, htokens, hts⟩ := readSegments_eq_ok_iff.1 h
        obtain ⟨hne, rfl, hslash⟩ := splitOn_eq_iff.1 htokens
        have hne' : ts ≠ [] := by simpa using hne
        refine Or.inr ⟨ts, hne', (renderTokens_eq_cons hne').symm, ?_, hts⟩
        intro t ht
        exact hslash t.render (List.mem_map_of_mem ht)
    · exact absurd h (by simp)
  · rintro (⟨rfl | rfl, rfl⟩ | ⟨ts, hne, rfl, hslash, hts⟩)
    · rfl
    · rfl
    · exact (readPath_renderTokens_eq_ok_iff hne hslash).2 hts

/-! ## The module in scope -/

/-- The module in scope after some tokens below a node of module `parent`: the last one that was
    written. -/
def lastModule (parent : Option Identifier) (ts : List PathToken) : Option Identifier :=
  (ts.filterMap PathToken.module?).getLast?.or parent

theorem lastModule_none (ts : List PathToken) :
    lastModule none ts = (ts.filterMap PathToken.module?).getLast? :=
  Option.or_none

theorem lastModule_cons (parent : Option Identifier) (t : PathToken) (ts : List PathToken) :
    lastModule parent (t :: ts) = lastModule (t.module?.or parent) ts := by
  unfold lastModule
  cases h : t.module? with
  | none => rw [List.filterMap_cons_none h, Option.none_or]
  | some m =>
      rw [List.filterMap_cons_some h, List.getLast?_cons, Option.some_or, Option.some_or]
      cases (ts.filterMap PathToken.module?).getLast? <;> rfl

theorem lastModule_concat (parent : Option Identifier) (t : PathToken) (ts : List PathToken) :
    lastModule parent (ts ++ [t]) = t.module?.or (lastModule parent ts) := by
  induction ts generalizing parent with
  | nil => rw [List.nil_append, lastModule_cons]; rfl
  | cons t' ts ih => rw [List.cons_append, lastModule_cons, lastModule_cons, ih]

/-- Each token resolves below the last module written before it. -/
theorem Leads.getElem?_eq_some {parent : Option Identifier} {ts : List PathToken}
    {ss : List Segment} (h : Leads parent ts ss) {i : Nat} {t : PathToken}
    (ht : ts[i]? = some t) :
    ∃ s, ss[i]? = some s ∧ Resolves (lastModule parent (ts.take i)) t s := by
  induction h generalizing i with
  | nil => simp at ht
  | @cons parent t₀ s₀ ts ss ht₀ _ ih =>
      cases i with
      | zero =>
          obtain rfl : t₀ = t := by simpa using ht
          exact ⟨s₀, rfl, ht₀⟩
      | succ i =>
          -- the tail starts below the first segment, whose module is the last one written so far
          obtain ⟨s, hs, hres⟩ := ih (by simpa using ht)
          refine ⟨s, by simpa using hs, ?_⟩
          rw [List.take_succ_cons, lastModule_cons, ← ht₀.module?_eq]
          exact hres

/-- The module of a segment is the last one written up to it. -/
theorem Leads.module?_eq {parent : Option Identifier} {ts : List PathToken} {i : Nat}
    {t : PathToken} {s : Segment} (ht : ts[i]? = some t)
    (h : Resolves (lastModule parent (ts.take i)) t s) :
    s.module? = lastModule parent (ts.take (i + 1)) := by
  rw [h.module?_eq, List.take_add_one, ht, Option.toList_some, lastModule_concat]

/-! ## Which paths are read -/

theorem exists_resolves {t : PathToken} (h : t.Accepted) (parent : Option Identifier) :
    ∃ s, Resolves parent t s := by
  obtain ⟨module?, name, raw?⟩ := t
  cases raw? with
  | none => exact ⟨_, .node⟩
  | some raw =>
      obtain ⟨entry, hentry⟩ := h raw rfl
      exact ⟨_, .list (ListInstance.parse_ofList_eq_ok_iff.1 hentry).2⟩

theorem Resolves.accepted {parent : Option Identifier} {t : PathToken} {s : Segment}
    (h : Resolves parent t s) : t.Accepted := by
  obtain ⟨module?, name, raw?⟩ := t
  intro raw hraw
  cases h with
  | node => simp at hraw
  | @list raw' keys hk =>
      obtain rfl : raw' = raw := by simpa using hraw
      exact ⟨⟨⟨.carry none, name⟩, keys⟩, ListInstance.parse_ofList_eq_ok_iff.2 ⟨rfl, hk⟩⟩

theorem exists_leads {ts : List PathToken} (h : ∀ t ∈ ts, t.Accepted)
    (parent : Option Identifier) : ∃ ss, Leads parent ts ss := by
  induction ts generalizing parent with
  | nil => exact ⟨[], .nil⟩
  | cons t ts ih =>
      obtain ⟨ht, hts⟩ := List.forall_mem_cons.1 h
      obtain ⟨s, hs⟩ := exists_resolves ht parent
      obtain ⟨ss, hss⟩ := ih hts s.module?
      exact ⟨s :: ss, .cons hs hss⟩

theorem Leads.accepted {parent : Option Identifier} {ts : List PathToken} {ss : List Segment}
    (h : Leads parent ts ss) : ∀ t ∈ ts, t.Accepted := by
  induction h with
  | nil => simp
  | cons ht _ ih => exact List.forall_mem_cons.2 ⟨ht.accepted, ih⟩

/-- The text is a path of these tokens: at least one, none with a slash in it, and each with keys
    that are those of a list entry, if it has any. -/
def IsPath (text : String) (ts : List PathToken) : Prop :=
  ts ≠ [] ∧ text.toList = (ts.flatMap fun t => '/' :: t.render) ∧
    ∀ t ∈ ts, '/' ∉ t.render ∧ t.Accepted

theorem parse?_eq_ok_iff {input : String} {a : Address} :
    parse? input = .ok a ↔
      ∃ ss, readPath input.toList = .ok ss ∧ a = resolved input ss := by
  unfold parse?
  cases readPath input.toList <;> simp [eq_comm]

theorem exists_readPath_of_isPath {input : String} {ts : List PathToken}
    (h : IsPath input ts) : ∃ ss, readPath input.toList = .ok ss ∧ Leads none ts ss := by
  obtain ⟨hne, htext, hts⟩ := h
  obtain ⟨ss, hss⟩ := exists_leads (fun t ht => (hts t ht).2) none
  exact ⟨ss, readPath_eq_ok_iff.2 (Or.inr ⟨ts, hne, htext, fun t ht => (hts t ht).1, hss⟩), hss⟩

theorem exists_isPath_of_readPath {input : String} {ss : List Segment}
    (h : readPath input.toList = .ok ss) :
    input = "" ∨ input = "/" ∨ ∃ ts, IsPath input ts := by
  rcases readPath_eq_ok_iff.1 h with ⟨hempty | hroot, -⟩ | ⟨ts, hne, htext, hslash, hts⟩
  · exact Or.inl (String.toList_eq_nil_iff.1 hempty)
  · exact Or.inr (Or.inl (String.toList_inj.1 hroot))
  · refine Or.inr (Or.inr ⟨ts, hne, htext, ?_⟩)
    intro t ht
    exact ⟨hslash t ht, hts.accepted t ht⟩

theorem leads_of_isPath {input : String} {a : Address} {ts : List PathToken}
    (h : parse? input = .ok a) (hpath : IsPath input ts) : Leads none ts a.segments := by
  obtain ⟨ss, hread, hss⟩ := exists_readPath_of_isPath hpath
  obtain ⟨ss', hread', rfl⟩ := parse?_eq_ok_iff.1 h
  rw [hread, Except.ok.injEq] at hread'
  subst hread'
  exact hss

/-- **A text is read if and only if it is a path, and each segment is as its token says, in the
    module that was written last.** -/
theorem parse?_iff_isPath (input : String) :
    ((∃ a, parse? input = .ok a) ↔ input = "" ∨ input = "/" ∨ ∃ ts, IsPath input ts) ∧
    (∀ a, parse? input = .ok a → input = "" ∨ input = "/" → a.segments = []) ∧
    (∀ a ts, parse? input = .ok a → IsPath input ts →
      a.segments.length = ts.length ∧
      ∀ (i : Nat) (t : PathToken), ts[i]? = some t → ∃ s, a.segments[i]? = some s ∧
        s.name = t.name ∧
        (t.raw? = none → s.keys = []) ∧
        (∀ raw entry, t.raw? = some raw →
          ListInstance.parse none (String.ofList (localText t.name (some raw))) = .ok entry →
          s.keys = entry.keys) ∧
        (s.isList = true ↔ '=' ∈ t.render) ∧
        (s.nodeName.isQualified = true ↔ t.module? ≠ none) ∧
        s.module? = ((ts.take (i + 1)).filterMap PathToken.module?).getLast?) := by
  refine ⟨⟨?_, ?_⟩, ?_, ?_⟩
  · rintro ⟨a, h⟩
    obtain ⟨ss, hread, -⟩ := parse?_eq_ok_iff.1 h
    exact exists_isPath_of_readPath hread
  · rintro (rfl | rfl | ⟨ts, hpath⟩)
    · exact ⟨_, rfl⟩
    · exact ⟨_, rfl⟩
    · obtain ⟨ss, hread, -⟩ := exists_readPath_of_isPath hpath
      exact ⟨_, parse?_eq_ok_iff.2 ⟨ss, hread, rfl⟩⟩
  · rintro a h (rfl | rfl)
    · exact (Except.ok.inj h) ▸ rfl
    · exact (Except.ok.inj h) ▸ rfl
  · intro a ts h hpath
    have hts := leads_of_isPath h hpath
    refine ⟨hts.length_eq, ?_⟩
    intro i t ht
    obtain ⟨s, hs, hres⟩ := hts.getElem?_eq_some ht
    refine ⟨s, hs, hres.name_eq, ?_, ?_, ?_, hres.isQualified_iff, ?_⟩
    · intro hraw
      exact hres.keys_eq_nil hraw
    · intro raw entry hraw hentry
      obtain ⟨-, hk⟩ := ListInstance.parse_ofList_eq_ok_iff.1 hentry
      exact hres.keys_eq hraw hk
    · rw [hres.isList_eq, t.mem_render_iff]
    · rw [Leads.module?_eq ht hres, lastModule_none]

/-- A module that a second one replaces, and a key with a colon and an equals sign in it. -/
theorem parse?_iff_isPath_switchedModule :
    let m : Identifier := ⟨"m", by decide⟩
    let n : Identifier := ⟨"n", by decide⟩
    let a : Identifier := ⟨"a", by decide⟩
    let b : Identifier := ⟨"b", by decide⟩
    let c : Identifier := ⟨"c", by decide⟩
    let ts : List PathToken :=
      [⟨some m, a, none⟩, ⟨none, b, some "c:d=e".toList⟩, ⟨some n, c, none⟩]
    IsPath "/m:a/b=c:d=e/n:c" ts ∧
    ∃ address : Address, parse? "/m:a/b=c:d=e/n:c" = .ok address ∧ address.segments.length = 3 ∧
      (∃ s : Segment, address.segments[0]? = some s ∧ s.name = a ∧ s.isList = false ∧
        s.nodeName.isQualified = true ∧ s.module? = some m) ∧
      (∃ s : Segment, address.segments[1]? = some s ∧ s.name = b ∧ s.isList = true ∧
        s.keys = [⟨.string "c:d=e", "c:d=e", none⟩] ∧
        s.nodeName.isQualified = false ∧ s.module? = some m) ∧
      ∃ s : Segment, address.segments[2]? = some s ∧ s.name = c ∧ s.isList = false ∧
        s.nodeName.isQualified = true ∧ s.module? = some n := by
  intro m n a b c ts
  let entry : ListInstance := ⟨⟨.unknown, b⟩, [⟨.string "c:d=e", "c:d=e", none⟩]⟩
  have hentry : ListInstance.parse none (String.ofList (localText b (some "c:d=e".toList))) =
      .ok entry := by decide +kernel
  have haccepted : ∀ t ∈ ts, t.Accepted := by
    intro t ht raw hraw
    simp only [ts, List.mem_cons, List.not_mem_nil, or_false] at ht
    rcases ht with rfl | rfl | rfl
    · exact absurd hraw (by simp)
    · obtain rfl := Option.some.inj hraw
      exact ⟨entry, hentry⟩
    · exact absurd hraw (by simp)
  have hslash : ∀ t ∈ ts, '/' ∉ t.render := by decide
  have hpath : IsPath "/m:a/b=c:d=e/n:c" ts :=
    ⟨by simp [ts], by decide, fun t ht => ⟨hslash t ht, haccepted t ht⟩⟩
  obtain ⟨hread, -, hsegments⟩ := parse?_iff_isPath "/m:a/b=c:d=e/n:c"
  obtain ⟨address, haddress⟩ := hread.2 (Or.inr (Or.inr ⟨ts, hpath⟩))
  obtain ⟨hlength, hsegment⟩ := hsegments address ts haddress hpath
  refine ⟨hpath, address, haddress, hlength, ?_, ?_, ?_⟩
  · obtain ⟨s, hs, hname, -, -, hlist, hqualified, hmodule⟩ := hsegment 0 _ rfl
    have hnolist : s.isList = false :=
      Bool.eq_false_iff.2 fun h => absurd (hlist.1 h) (by decide)
    exact ⟨s, hs, hname, hnolist, hqualified.2 (by simp), hmodule⟩
  · obtain ⟨s, hs, hname, -, hkeys, hlist, hqualified, hmodule⟩ := hsegment 1 _ rfl
    have hunqualified : s.nodeName.isQualified = false :=
      Bool.eq_false_iff.2 fun h => hqualified.1 h rfl
    exact ⟨s, hs, hname, hlist.2 (by decide), hkeys _ entry rfl hentry, hunqualified,
      hmodule⟩
  · obtain ⟨s, hs, hname, -, -, hlist, hqualified, hmodule⟩ := hsegment 2 _ rfl
    have hnolist : s.isList = false :=
      Bool.eq_false_iff.2 fun h => absurd (hlist.1 h) (by decide)
    exact ⟨s, hs, hname, hnolist, hqualified.2 (by simp), hmodule⟩

end Address

end Restconf
