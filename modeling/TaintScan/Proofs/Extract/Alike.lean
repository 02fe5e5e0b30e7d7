import TaintScan.Proofs.Extract.Unit

/-! # Two extractions give units that are alike

Two units whose views correspond have alike scopes: the same names, parameters, words and statements, in
the same order, with spans that correspond.
-/
namespace TaintScan

/-- Statements that no rule looks at. -/
def StatementKind.isSilent : StatementKind → Bool
  | .controlClose | .unparsed => true
  | _ => false

/-- How two units correspond: what is read of them, and how their markers and headers are placed. -/
structure Likeness extends Correspondence where
  mark : Span → Span → Prop
  name : String → Prop
  bound : ∀ {v w : View}, view v w → w.bound = v.bound
  mark_of_span : ∀ {s t : Span}, span s t → mark s t
  outside : mark ⟨0, 0⟩ ⟨0, 0⟩
  closing : ∀ {v w : View}, view v w → ∀ i, mark (Builder.closingSpan v i) (Builder.closingSpan w i)
  identifier : ∀ {v w : View}, view v w → ∀ {i : Nat}, v.isIdentAt i = true → name (v.textAt i)

/-- Two statements that are alike, over the expressions of an arena. -/
inductive Statement.Matches (L : Likeness) (r : ExprArena) (s t : Statement) : Prop
  | plain (h : s.Alike L.span r t)
  | silent (hk : s.kind.isSilent = true) (h : s.Alike L.mark r t)

structure Scope.Alike (L : Likeness) (r : ExprArena) (s t : Scope) : Prop where
  kind : t.kind = s.kind
  name : t.name = s.name
  parent : t.parent = s.parent
  parentKind : t.parentKind = s.parentKind
  params : List.Forall₂ (Param.Alike L.span) s.params t.params
  paramNames : ∀ p ∈ s.params, L.name p.name
  modifiers : t.modifiers = s.modifiers
  annotations : t.annotations = s.annotations
  headerSpan : L.mark s.headerSpan t.headerSpan
  statements : List.Forall₂ (Statement.Matches L r) s.statements.toList t.statements.toList

structure ExtractedUnit.Alike (L : Likeness) (x y : ExtractedUnit) : Prop where
  arena : x.arena.Alike L.span y.arena
  scopes : List.Forall₂ (Scope.Alike L x.arena) x.scopes.toList y.scopes.toList

/-! ## Statements -/

namespace Statement.Matches

variable {L : Likeness} {r m : ExprArena} {s t : Statement} (h : s.Matches L r t)
include h

theorem mono (hm : r ≤ m) : s.Matches L m t := by
  have halike {S : Span → Span → Prop} (h : s.Alike S r t) : s.Alike S m t :=
    { h with operands := h.operands.mono hm }
  cases h with
  | plain h => exact .plain (halike h)
  | silent hk h => exact .silent hk (halike h)

theorem kind : t.kind = s.kind := by
  cases h with
  | plain h => exact h.kind
  | silent _ h => exact h.kind

theorem mark : L.mark s.span t.span := by
  cases h with
  | plain h => exact L.mark_of_span h.span
  | silent _ h => exact h.span

theorem controlTag : t.controlTag = s.controlTag := by
  cases h with
  | plain h => exact h.controlTag
  | silent _ h => exact h.controlTag

theorem masked : s.masked.Matches L r t.masked :=
  .silent rfl ⟨rfl, rfl, rfl, .nil, h.mark, h.controlTag⟩

end Statement.Matches

theorem Scope.Alike.mono {L : Likeness} {r m : ExprArena} {s t : Scope} (h : s.Alike L r t)
    (hm : r ≤ m) : s.Alike L m t :=
  { h with statements := h.statements.imp fun _ _ h => h.mono hm }

theorem Scope.Alike.push {L : Likeness} {r : ExprArena} {s t : Scope} (h : s.Alike L r t)
    {a b : Statement} (hab : a.Matches L r b) : (s.push a).Alike L r (t.push b) :=
  { h with
    statements := by
      change List.Forall₂ _ (s.statements.push a).toList (t.statements.push b).toList
      rw [Array.toList_push, Array.toList_push]
      exact List.rel_append h.statements (.cons hab .nil) }

/-! ## States -/

/-- Two states of extractions whose scopes are alike so far. -/
structure Builder.Twin (L : Likeness) (b c : Builder) : Prop where
  alike : b.Alike L.span c
  tags : c.tags = b.tags
  countdown : c.countdown = b.countdown
  size : c.scopes.size = b.scopes.size
  scope : ∀ (i : Nat) (s : Scope), b.scopes[i]? = some s →
    ∃ t, c.scopes[i]? = some t ∧ s.Alike L b.draft.arena t

theorem Builder.kinds_eq_of_scope {L : Likeness} {b c : Builder} {r : ExprArena}
    (hsize : c.scopes.size = b.scopes.size)
    (hscope : ∀ (i : Nat) (s : Scope), b.scopes[i]? = some s → ∃ t, c.scopes[i]? = some t ∧ s.Alike L r t) :
    c.scopes.map (·.kind) = b.scopes.map (·.kind) := by
  apply Array.ext_getElem?
  intro i
  rw [Array.getElem?_map, Array.getElem?_map]
  cases hs : b.scopes[i]? with
  | none =>
    have hi : c.scopes[i]? = none := by
      rw [Array.getElem?_eq_none_iff, hsize]
      exact Array.getElem?_eq_none_iff.mp hs
    rw [hi]
  | some s =>
    obtain ⟨t, ht, hst⟩ := hscope i s hs
    rw [ht, Option.map_some, Option.map_some, hst.kind]

namespace Builder.Twin

variable {L : Likeness} {b c : Builder} (h : b.Twin L c) {v w : View}
include h

theorem fitted (bound : Nat) {s t : Statement} (hs : s.Matches L b.draft.arena t) :
    (b.fitted bound s).Matches L b.draft.arena (c.fitted bound t) := by
  have hcount : (c.scopes[c.currentScope]?.map (·.statements.size)).getD 0 =
      (b.scopes[b.currentScope]?.map (·.statements.size)).getD 0 := by
    rw [h.alike.currentScope]
    cases hscope : b.scopes[b.currentScope]? with
    | none =>
      have hnone : c.scopes[b.currentScope]? = none := by
        rw [Array.getElem?_eq_none_iff, h.size]
        exact Array.getElem?_eq_none_iff.mp hscope
      rw [hnone]
    | some old =>
      obtain ⟨new, hnew, halike⟩ := h.scope _ old hscope
      have hlength := halike.statements.length_eq
      rw [hnew]
      simpa using hlength.symm
  unfold Builder.fitted
  rw [hcount, hs.kind]
  split
  · exact hs.masked
  · exact hs

theorem push (bound : Nat) {s t : Statement} (hs : s.Matches L b.draft.arena t) :
    (b.push bound s).Twin L (c.push bound t) := by
  have hsize : (c.push bound t).scopes.size = (b.push bound s).scopes.size := by
    obtain ⟨_, _, hb⟩ := b.push_eq bound s
    obtain ⟨_, _, hc⟩ := c.push_eq bound t
    rw [hb, hc]
    simpa using h.size
  have hscope : ∀ (i : Nat) (old : Scope), (b.push bound s).scopes[i]? = some old →
      ∃ new, (c.push bound t).scopes[i]? = some new ∧ old.Alike L b.draft.arena new := by
    intro i scope hi
    rw [Builder.push_scope] at hi
    rw [Builder.push_scope, h.alike.currentScope]
    split at hi
    · next heq =>
      obtain ⟨old, hold, rfl⟩ := Option.map_eq_some_iff.mp hi
      obtain ⟨new, hnew, halike⟩ := h.scope i old hold
      rw [if_pos heq, hnew]
      exact ⟨_, rfl, halike.push (h.fitted bound hs)⟩
    · next hne =>
      rw [if_neg hne]
      exact h.scope i scope hi
  have hkinds := Builder.kinds_eq_of_scope hsize hscope
  obtain ⟨_, _, hb⟩ := b.push_eq bound s
  obtain ⟨_, _, hc⟩ := c.push_eq bound t
  rw [hb] at hsize hscope hkinds ⊢
  rw [hc] at hsize hscope hkinds ⊢
  exact
    { alike := { h.alike with kinds := hkinds }
      tags := h.tags
      countdown := h.countdown
      size := hsize
      scope := hscope }

theorem withDraft {d e : Draft} (hd : d.Alike L.span e) (harena : b.draft.arena ≤ d.arena) :
    Twin L { b with draft := d } { c with draft := e } :=
  { h with
    alike := { h.alike with draft := hd }
    scope i s hs := by
      obtain ⟨t, ht, hst⟩ := h.scope i s hs
      exact ⟨t, ht, hst.mono harena⟩ }

theorem withBlocks (blocks : List Block) : Twin L { b with blocks } { c with blocks } :=
  { h with alike := { h.alike with blocks := rfl } }

theorem pushBlock (block : Block) :
    Twin L { b with blocks := block :: b.blocks } { c with blocks := block :: c.blocks } := by
  have hblocks := h.withBlocks (block :: b.blocks)
  exact { hblocks with alike := { hblocks.alike with blocks := by rw [h.alike.blocks] } }

theorem closeTop (hv : L.view v w) : (b.closeTop v).Twin L (c.closeTop w) := by
  unfold Builder.closeTop
  rw [h.alike.blocks]
  split
  · exact h
  · next block rest _ =>
    have hrest := h.withBlocks rest
    dsimp only
    split
    · next tag _ =>
      rw [L.bound hv, hrest.alike.pos]
      exact hrest.push _ (.silent rfl ⟨rfl, rfl, rfl, .nil, L.closing hv _, rfl⟩)
    · exact hrest

theorem openControl (hv : L.view v w) (kind : ControlKind) (targets : List String) {operands : List ExprId}
    {start : Nat} (hstart : start < v.tokens.size) (ho : ∀ id ∈ operands, b.draft.arena.Fits maxOperandHeight id) :
    (b.openControl v kind targets operands start .block none).Twin L
      (c.openControl w kind targets operands start .block none) := by
  have hclear : Twin L
      { b with tags := b.tags.modify b.currentScope (· + 1), draft.properties := #[] }
      { c with tags := b.tags.modify b.currentScope (· + 1), draft.properties := #[] } :=
    { alike := { h.alike with draft := h.alike.draft.withProperties .nil }
      tags := rfl
      countdown := h.countdown
      size := h.size
      scope := h.scope }
  have hspan : L.span (v.spanSince start b.pos) (w.spanSince start c.pos) := by
    rw [h.alike.pos]
    exact L.spanBetween hv _ _ hstart
  have hopen : Statement.Matches L b.draft.arena
      ⟨.controlOpen kind, targets, false, operands, v.spanSince start b.pos,
        b.tags.getD b.currentScope 0 + 1⟩
      ⟨.controlOpen kind, targets, false, operands, w.spanSince start c.pos,
        b.tags.getD b.currentScope 0 + 1⟩ :=
    .plain ⟨rfl, rfl, rfl, ⟨rfl, ho⟩, hspan, rfl⟩
  have hpush := hclear.push v.bound hopen
  unfold Builder.openControl
  dsimp only
  rw [h.tags, h.alike.currentScope, L.bound hv]
  exact hpush.pushBlock _

theorem openScope (hv : L.view v w) (kind : ScopeKind) (name : String) {params params' : List Param}
    (hp : List.Forall₂ (Param.Alike L.span) params params') (hd : ∀ p ∈ params, v.Declares p) {s t : Span}
    (hs : L.span s t) :
    (b.openScope v kind name params s false none).Twin L
      (c.openScope w kind name params' t false none) := by
  have hprivate := h.alike.inPrivateSection
  have hlanguage : w.language = v.language := (L.alike hv).language
  have hnames : ∀ p ∈ params, L.name p.name := by
    intro p hp
    obtain ⟨i, hi, hname⟩ := hd p hp
    rw [hname]
    exact L.identifier hv hi
  have hsize : (c.openScope w kind name params' t false none).scopes.size =
      (b.openScope v kind name params s false none).scopes.size := by
    simp only [Builder.openScope, Array.size_push, h.size]
  have hscope : ∀ (i : Nat) (old : Scope),
      (b.openScope v kind name params s false none).scopes[i]? = some old →
      ∃ new, (c.openScope w kind name params' t false none).scopes[i]? = some new ∧
        old.Alike L b.draft.arena new := by
    intro i old hi
    simp only [Builder.openScope, Array.getElem?_push, h.size] at hi ⊢
    split at hi
    · next heq =>
      cases hi
      rw [if_pos heq, h.alike.currentScope, h.alike.scopeKind, h.alike.modifiers, h.alike.annotations,
        hlanguage, hprivate]
      exact ⟨_, rfl, rfl, rfl, rfl, rfl, hp, hnames, rfl, rfl, L.mark_of_span hs, .nil⟩
    · next hne =>
      rw [if_neg hne]
      exact h.scope i old hi
  have hkinds := Builder.kinds_eq_of_scope hsize hscope
  exact
    { alike :=
        { draft := h.alike.draft
          blocks := by simp only [Builder.openScope, h.alike.blocks, h.size]
          kinds := hkinds
          modifiers := rfl
          annotations := rfl }
      tags := by simp only [Builder.openScope, h.tags]
      countdown := h.countdown
      size := hsize
      scope := hscope }

end Builder.Twin

def Builder.twins (L : Likeness) : Tracking L.toCorrespondence where
  rel b c := b.Twin L c
  mayStop := True
  runsOut _ _ := False
  alike h := h.alike
  withDraft h hd harena := h.withDraft hd harena
  withWords h _ _ := { h with alike := { h.alike with modifiers := rfl, annotations := rfl } }
  withBlocks h blocks _ := h.withBlocks blocks
  pushPlain h := h.pushBlock _
  closeTop hv h := h.closeTop hv
  openControl hv h kind targets _ _ hstart ho := h.openControl hv kind targets hstart ho
  openScope hv h kind name _ _ _ _ hp hd hs := h.openScope hv kind name hp hd hs
  push hv h _ _ hs _ _ _ := by
    rw [L.bound hv]
    exact h.push _ (.plain hs)
  poll {b c} h := by
    have hturn : b.turn.Twin L c.turn :=
      { alike := { h.alike with }
        tags := h.tags
        countdown := by rw [Builder.turn, Builder.turn, h.countdown]
        size := h.size
        scope := h.scope }
    cases hpoll : b.countdown.poll.1 with
    | true => exact .stop hpoll (h.countdown ▸ hpoll) trivial
    | false => exact .go hpoll (h.countdown ▸ hpoll) hturn

/-! ## Units -/

theorem Builder.twin_start (L : Likeness) (countdown : Countdown) :
    Twin L { countdown := countdown } { countdown := countdown } where
  alike :=
    { draft :=
        { pos := rfl
          depth := rfl
          arena := ⟨⟨rfl, by simp, by simp⟩, rfl, .nil⟩
          lvalues := rfl
          deferred := rfl
          sources := by simp
          properties := .nil }
      blocks := rfl
      kinds := rfl
      modifiers := rfl
      annotations := rfl }
  tags := rfl
  countdown := rfl
  size := rfl
  scope i s hs := by
    have hmem : s ∈ (#[_] : Array Scope) := Array.mem_of_getElem? hs
    cases Array.mem_singleton.mp hmem
    exact ⟨_, hs, rfl, rfl, rfl, rfl, .nil, List.forall_mem_nil _, rfl, rfl, L.outside, .nil⟩

theorem Builder.Twin.forall₂_scopes {L : Likeness} {b c : Builder} (h : b.Twin L c) :
    List.Forall₂ (Scope.Alike L b.draft.arena) b.scopes.toList c.scopes.toList := by
  refine List.forall₂_iff_get.mpr ⟨by simpa using h.size.symm, fun i hi hj => ?_⟩
  rw [Array.length_toList] at hi hj
  obtain ⟨t, ht, hst⟩ := h.scope i b.scopes[i] (Array.getElem?_eq_getElem hi)
  rw [Array.getElem?_eq_getElem hj] at ht
  cases ht
  exact hst

/-- Where the views of two units correspond and one of them is extracted, so is the other one, and what
is extracted is alike. -/
theorem SourceUnit.extract_alike (L : Likeness) {u w : SourceUnit} {bound : Nat}
    (hview : L.view (u.tokenView (Token.lex u.language u.content.toList) bound)
      (w.tokenView (Token.lex w.language w.content.toList) bound))
    {countdown c : Countdown} {x : ExtractedUnit} (hx : u.extract bound countdown = (.ok x, c)) :
    ∃ y, w.extract bound countdown = (.ok y, c) ∧ x.Alike L y := by
  have hat : L.toCorrespondence.At {} (u.tokenView (Token.lex u.language u.content.toList) bound)
      (w.tokenView (Token.lex w.language w.content.toList) bound) :=
    ⟨hview, (fun _ h => nomatch h), Nat.le_refl _⟩
  have hmeets := Walk.unit_agree (Builder.twins L) hat { countdown := countdown }
    { countdown := countdown } (Builder.twin_start L countdown)
    (fun _ hl => absurd hl (Array.not_mem_empty _)) (le_refl _)
  unfold SourceUnit.extract at hx ⊢
  dsimp only at hx ⊢
  rcases hb : Walk.unit (u.tokenView (Token.lex u.language u.content.toList) bound)
    { countdown := countdown } with ⟨result, b⟩
  rcases hc : Walk.unit (w.tokenView (Token.lex w.language w.content.toList) bound)
    { countdown := countdown } with ⟨result', b'⟩
  rw [hb] at hx hmeets
  rw [hc] at hmeets
  cases hmeets with
  | cancelled _ => cases hx
  | runOut => cases hx
  | ok _ hgoes =>
    have htwin : b.Twin L b' := hgoes.rel
    cases hx
    dsimp only
    rw [htwin.countdown]
    exact ⟨_, rfl, htwin.alike.draft.arena, htwin.forall₂_scopes⟩

end TaintScan
