import TaintScan.Proofs.Extract.Unit

/-! # Control markers nest

The statements of a scope are a nested word: blocks are numbered in the order in which they open, a
closing marker belongs to the block that opened last, and every other statement carries the number of
the innermost open block.
-/
namespace TaintScan

/-- A word of statements whose own block has the number `tag`; `n` blocks of the scope opened before it
and `m` up to its end. -/
inductive Nested : (tag n m : Nat) → List Statement → Prop where
  | nil {tag n : Nat} : Nested tag n n []
  | plain {tag n m : Nat} {s : Statement} {rest : List Statement} : s.kind.isMarker = false →
    s.controlTag = tag → Nested tag n m rest → Nested tag n m (s :: rest)
  | block {tag n m k : Nat} {opener closer : Statement} {kind : ControlKind}
    {body rest : List Statement} : opener.kind = .controlOpen kind → opener.controlTag = n + 1 →
    Nested (n + 1) (n + 1) m body → closer.kind = .controlClose → closer.controlTag = n + 1 →
    Nested tag m k rest → Nested tag n k (opener :: (body ++ closer :: rest))

theorem Nested.append {tag n m k : Nat} {left right : List Statement} (hl : Nested tag n m left)
    (hr : Nested tag m k right) : Nested tag n k (left ++ right) := by
  induction hl with
  | nil => exact hr
  | plain hk ht _ ih => exact .plain hk ht (ih hr)
  | block hk ht hbody hk' ht' _ _ ih =>
    rw [List.cons_append, List.append_assoc, List.cons_append]
    exact .block hk ht hbody hk' ht' (ih hr)

/-- The beginning of a nested word: the numbers of the blocks that are still open, innermost first, and
how many blocks opened. -/
inductive Opened : List Nat → Nat → List Statement → Prop where
  | outside {n : Nat} {w : List Statement} : Nested 0 0 n w → Opened [] n w
  | inside {stack : List Nat} {n m : Nat} {w body : List Statement} {opener : Statement}
    {kind : ControlKind} : Opened stack n w → opener.kind = .controlOpen kind →
    opener.controlTag = n + 1 → Nested (n + 1) (n + 1) m body →
    Opened ((n + 1) :: stack) m (w ++ opener :: body)

namespace Opened

variable {stack : List Nat} {n m t : Nat} {w more : List Statement} {s : Statement}

theorem append (h : Opened stack n w) (hm : Nested (stack.headD 0) n m more) :
    Opened stack m (w ++ more) := by
  cases h with
  | outside hw => exact .outside (hw.append hm)
  | inside hw hk ht hbody =>
    rw [List.append_assoc, List.cons_append]
    exact .inside hw hk ht (hbody.append hm)

theorem push (h : Opened stack n w) (hk : s.kind.isMarker = false) (ht : s.controlTag = stack.headD 0) :
    Opened stack n (w ++ [s]) :=
  h.append (.plain hk ht .nil)

theorem enter {kind : ControlKind} (h : Opened stack n w) (hk : s.kind = .controlOpen kind)
    (ht : s.controlTag = n + 1) : Opened ((n + 1) :: stack) (n + 1) (w ++ [s]) :=
  .inside h hk ht .nil

theorem close (h : Opened (t :: stack) n w) (hk : s.kind = .controlClose) (ht : s.controlTag = t) :
    Opened stack n (w ++ [s]) := by
  cases h with
  | inside hw hk' ht' hbody =>
    rw [List.append_assoc, List.cons_append]
    exact hw.append (.block hk' ht' hbody hk ht .nil)

end Opened

/-! ## The open blocks of a scope -/

namespace Frame

/-- The scope that a statement under some frames belongs to. -/
def scopeOf : List Frame → Nat
  | [] => 0
  | .scope i :: _ => i
  | _ :: rest => scopeOf rest

/-- The open control blocks of a scope, innermost first. -/
def openTags (i : Nat) : List Frame → List Nat
  | [] => []
  | .control tag :: rest => if scopeOf rest = i then tag :: openTags i rest else openTags i rest
  | _ :: rest => openTags i rest

/-- Scopes stand in the scopes that were there before them. -/
def ScopeChain : Nat → List Frame → Prop
  | _, [] => True
  | n, .scope i :: rest => 0 < i ∧ i < n ∧ ScopeChain i rest
  | n, _ :: rest => ScopeChain n rest

theorem ScopeChain.mono {n m : Nat} {frames : List Frame} (h : ScopeChain n frames) (hle : n ≤ m) :
    ScopeChain m frames := by
  induction frames with
  | nil => trivial
  | cons frame rest ih =>
    cases frame with
    | scope i => exact ⟨h.1, Nat.lt_of_lt_of_le h.2.1 hle, h.2.2⟩
    | control tag => exact ih h
    | plain => exact ih h

theorem ScopeChain.openTags_eq_nil {n i : Nat} {frames : List Frame} (h : ScopeChain n frames)
    (hi : n ≤ i) (hpos : 0 < i) : scopeOf frames ≠ i ∧ openTags i frames = [] := by
  induction frames generalizing n with
  | nil => exact ⟨Nat.ne_of_lt hpos, rfl⟩
  | cons frame rest ih =>
    cases frame with
    | scope j =>
      obtain ⟨_, hj, hrest⟩ := h
      have hji : j < i := Nat.lt_of_lt_of_le hj hi
      exact ⟨Nat.ne_of_lt hji, (ih hrest (Nat.le_of_lt hji)).2⟩
    | control tag =>
      obtain ⟨hne, hnil⟩ := ih h hi
      refine ⟨hne, ?_⟩
      rw [openTags, if_neg hne]
      exact hnil
    | plain => exact ih h hi

end Frame

namespace Builder

def frames (b : Builder) : List Frame := b.blocks.map (·.frame)

theorem currentScope_eq (b : Builder) : b.currentScope = Frame.scopeOf b.frames := by
  unfold currentScope frames
  induction b.blocks with
  | nil => rfl
  | cons block rest ih =>
    rw [List.findSome?_cons, List.map_cons]
    cases block.frame with
    | scope i => rfl
    | control tag => exact ih
    | plain => exact ih

theorem tagOf_eq {n : Nat} (blocks : List Block) (h : Frame.ScopeChain n (blocks.map (·.frame))) :
    tagOf blocks =
      (Frame.openTags (Frame.scopeOf (blocks.map (·.frame))) (blocks.map (·.frame))).headD 0 := by
  induction blocks with
  | nil => rfl
  | cons block rest ih =>
    rw [tagOf, List.map_cons] at *
    cases hframe : block.frame with
    | scope i =>
      rw [hframe] at h
      rw [Frame.scopeOf, Frame.openTags, (h.2.2.openTags_eq_nil (Nat.le_refl i) h.1).2]
      · rfl
      · exact fun _ h => nomatch h
    | control tag =>
      rw [Frame.scopeOf, Frame.openTags, if_pos rfl]
      · rfl
      · exact fun _ h => nomatch h
    | plain =>
      rw [hframe] at h
      exact ih h

/-- The markers of every scope that the bound has not cut nest, with the blocks that are open around the
next statement. -/
structure Nesting (bound : Nat) (b : Builder) : Prop where
  scopes_pos : 0 < b.scopes.size
  tags_size : b.tags.size = b.scopes.size
  chain : Frame.ScopeChain b.scopes.size b.frames
  opened : ∀ (i : Nat) (scope : Scope), b.scopes[i]? = some scope → scope.statements.size ≤ bound →
    Opened (Frame.openTags i b.frames) (b.tags.getD i 0) scope.statements.toList

theorem push_scope_cases {b : Builder} {bound : Nat} {s : Statement} {i : Nat} {scope : Scope}
    (h : (b.push bound s).scopes[i]? = some scope) (hsize : scope.statements.size ≤ bound) :
    (b.currentScope = i ∧ ∃ old, b.scopes[i]? = some old ∧ old.statements.size ≤ bound ∧
        scope.statements.toList = old.statements.toList ++ [s]) ∨
      (b.currentScope ≠ i ∧ b.scopes[i]? = some scope) := by
  rw [push_scope] at h
  split at h
  · next hi =>
    obtain ⟨old, hold, rfl⟩ := Option.map_eq_some_iff.mp h
    have hlt : old.statements.size < bound := by
      change (old.statements.push _).size ≤ bound at hsize
      rw [Array.size_push] at hsize
      exact hsize
    have hfitted : b.fitted bound s = s := by
      unfold fitted
      rw [hi, hold]
      simp [Nat.not_le.mpr hlt]
    refine Or.inl ⟨hi, old, hold, Nat.le_of_lt hlt, ?_⟩
    rw [hfitted]
    exact Array.toList_push
  · next hi => exact Or.inr ⟨hi, h⟩

theorem push_tags (b : Builder) (bound : Nat) (s : Statement) : (b.push bound s).tags = b.tags := by
  obtain ⟨_, _, hpush⟩ := b.push_eq bound s
  rw [hpush]

theorem push_scopes_size (b : Builder) (bound : Nat) (s : Statement) :
    (b.push bound s).scopes.size = b.scopes.size := by
  obtain ⟨_, _, hpush⟩ := b.push_eq bound s
  rw [hpush]
  exact Array.size_modify

theorem openControl_cases (b : Builder) (v : View) (kind : ControlKind) (targets : List String)
    (operands : List ExprId) (start : Nat) :
    ∃ (c : Builder) (s : Statement), c.scopes = b.scopes ∧ c.blocks = b.blocks ∧
      c.tags = b.tags.modify b.currentScope (· + 1) ∧ s.kind = .controlOpen kind ∧
      s.controlTag = b.tags.getD b.currentScope 0 + 1 ∧
      (b.openControl v kind targets operands start .block none).scopes = (c.push v.bound s).scopes ∧
      (b.openControl v kind targets operands start .block none).frames =
        .control (b.tags.getD b.currentScope 0 + 1) :: b.frames ∧
      (b.openControl v kind targets operands start .block none).tags =
        b.tags.modify b.currentScope (· + 1) := by
  refine ⟨{ b with tags := b.tags.modify b.currentScope (· + 1), draft.properties := #[] }, _,
    rfl, rfl, rfl, rfl, rfl, rfl, ?_, ?_⟩
  · unfold openControl frames
    dsimp only
    rw [List.map_cons, push_blocks]
  · unfold openControl
    dsimp only
    rw [push_tags]

theorem tag_push_self (tags : Array Nat) : (tags.push 0).getD tags.size 0 = 0 := by
  simp [Array.getD_eq_getD_getElem?]

theorem tag_push_of_lt (tags : Array Nat) {i : Nat} (h : i < tags.size) :
    (tags.push 0).getD i 0 = tags.getD i 0 := by
  simp [Array.getD_eq_getD_getElem?, Array.getElem?_push, Nat.ne_of_lt h]

theorem tag_modify (tags : Array Nat) {i j : Nat} (h : j < tags.size) :
    (tags.modify i (· + 1)).getD j 0 = tags.getD j 0 + if i = j then 1 else 0 := by
  rw [Array.getD_eq_getD_getElem?, Array.getD_eq_getD_getElem?, Array.getElem?_modify,
    Array.getElem?_eq_getElem h]
  split <;> rfl

namespace Nesting

variable {bound : Nat} {b c : Builder}

theorem of_push {s : Statement} (hscopes : c.scopes = (b.push bound s).scopes)
    (hpos : 0 < b.scopes.size) (hsize : c.tags.size = b.scopes.size)
    (hchain : Frame.ScopeChain b.scopes.size c.frames)
    (hcurrent : ∀ old, b.scopes[b.currentScope]? = some old → old.statements.size ≤ bound →
      Opened (Frame.openTags b.currentScope c.frames) (c.tags.getD b.currentScope 0)
        (old.statements.toList ++ [s]))
    (hother : ∀ (i : Nat) (scope : Scope), b.currentScope ≠ i → b.scopes[i]? = some scope →
      scope.statements.size ≤ bound →
      Opened (Frame.openTags i c.frames) (c.tags.getD i 0) scope.statements.toList) :
    c.Nesting bound := by
  refine ⟨?_, ?_, ?_, ?_⟩
  · rw [hscopes, push_scopes_size]
    exact hpos
  · rw [hscopes, push_scopes_size]
    exact hsize
  · rw [hscopes, push_scopes_size]
    exact hchain
  · intro i scope hscope hle
    rw [hscopes] at hscope
    obtain ⟨rfl, old, hold, hle', hlist⟩ | ⟨hi, hold⟩ := push_scope_cases hscope hle
    · rw [hlist]
      exact hcurrent old hold hle'
    · exact hother i scope hi hold hle

variable (h : b.Nesting bound)
include h

theorem currentTag_eq : b.currentTag = (Frame.openTags b.currentScope b.frames).headD 0 := by
  rw [currentScope_eq]
  exact tagOf_eq b.blocks h.chain

theorem push {s : Statement} (hk : s.kind.isMarker = false) (ht : s.controlTag = b.currentTag) :
    (b.push bound s).Nesting bound := by
  have hframes : (b.push bound s).frames = b.frames := by rw [frames, push_blocks, frames]
  refine of_push rfl h.scopes_pos ?_ ?_ ?_ ?_
  · rw [push_tags]
    exact h.tags_size
  · rw [hframes]
    exact h.chain
  · intro old hold hle
    rw [push_tags, hframes]
    exact (h.opened _ old hold hle).push hk (ht.trans h.currentTag_eq)
  · intro i scope _ hscope hle
    rw [push_tags, hframes]
    exact h.opened i scope hscope hle

theorem pushPlain : Nesting bound { b with blocks := { frame := .plain } :: b.blocks } :=
  ⟨h.scopes_pos, h.tags_size, h.chain, h.opened⟩

theorem closeTop {v : View} (hv : v.bound = bound) : (b.closeTop v).Nesting bound := by
  obtain ⟨hpos, hsize, hchain, hopened⟩ := h
  unfold Builder.closeTop
  split
  · exact ⟨hpos, hsize, hchain, hopened⟩
  · next block rest hblocks =>
    have hframes : b.frames = block.frame :: rest.map (·.frame) := by rw [frames, hblocks, List.map_cons]
    rw [hframes] at hchain hopened
    cases hframe : block.frame with
    | scope i =>
      rw [hframe] at hchain hopened
      exact ⟨hpos, hsize, hchain.2.2.mono (Nat.le_of_lt hchain.2.1), hopened⟩
    | plain =>
      rw [hframe] at hchain hopened
      exact ⟨hpos, hsize, hchain, hopened⟩
    | control tag =>
      rw [hframe] at hchain hopened
      dsimp only
      rw [hv]
      have hcurrent : currentScope { b with blocks := rest } = Frame.scopeOf (rest.map (·.frame)) :=
        currentScope_eq _
      refine of_push rfl hpos ?_ ?_ ?_ ?_
      · rw [push_tags]
        exact hsize
      · rw [frames, push_blocks]
        exact hchain
      · intro old hold hle
        have hold := hopened _ old hold hle
        rw [Frame.openTags, if_pos hcurrent.symm] at hold
        rw [push_tags, frames, push_blocks]
        exact hold.close rfl rfl
      · intro i scope hi hscope hle
        have hscope := hopened i scope hscope hle
        rw [Frame.openTags, if_neg fun heq => hi (hcurrent.trans heq)] at hscope
        rw [push_tags, frames, push_blocks]
        exact hscope

theorem openControl {v : View} (hv : v.bound = bound) (kind : ControlKind) (targets : List String)
    (operands : List ExprId) (start : Nat) :
    (b.openControl v kind targets operands start .block none).Nesting bound := by
  obtain ⟨c, s, hscopes, hblocks, htags, hk, ht, hscopes', hframes', htags'⟩ :=
    b.openControl_cases v kind targets operands start
  have hcurrent : c.currentScope = b.currentScope := by
    rw [currentScope_eq, currentScope_eq, frames, frames, hblocks]
  have hlt {i : Nat} {scope : Scope} (hscope : b.scopes[i]? = some scope) : i < b.tags.size := by
    rw [h.tags_size]
    exact (Array.getElem?_eq_some_iff.mp hscope).1
  rw [hv] at hscopes'
  refine of_push hscopes' ?_ ?_ ?_ ?_ ?_
  · rw [hscopes]
    exact h.scopes_pos
  · rw [htags', hscopes]
    exact Array.size_modify.trans h.tags_size
  · rw [hframes', hscopes]
    exact h.chain
  · intro old hold hle
    rw [hscopes, hcurrent] at hold
    rw [htags', hframes', hcurrent, tag_modify _ (hlt hold), if_pos rfl, Frame.openTags,
      if_pos b.currentScope_eq.symm]
    exact (h.opened _ old hold hle).enter hk ht
  · intro i scope hi hscope hle
    rw [hscopes] at hscope
    rw [hcurrent] at hi
    rw [htags', hframes', tag_modify _ (hlt hscope), if_neg hi, Frame.openTags,
      if_neg fun heq => hi (b.currentScope_eq.trans heq)]
    exact h.opened i scope hscope hle

theorem openScope {v : View} (kind : ScopeKind) (name : String) (params : List Param) (header : Span) :
    (b.openScope v kind name params header false none).Nesting bound := by
  obtain ⟨hpos, hsize, hchain, hopened⟩ := h
  refine ⟨?_, ?_, ?_, ?_⟩
  · change 0 < (b.scopes.push _).size
    rw [Array.size_push]
    exact Nat.succ_pos _
  · change (b.tags.push 0).size = (b.scopes.push _).size
    rw [Array.size_push, Array.size_push, hsize]
  · change Frame.ScopeChain (b.scopes.push _).size (.scope b.scopes.size :: b.frames)
    rw [Array.size_push]
    exact ⟨hpos, Nat.lt_succ_self _, hchain⟩
  · intro i scope hscope hle
    change (b.scopes.push _)[i]? = some scope at hscope
    change Opened (Frame.openTags i b.frames) ((b.tags.push 0).getD i 0) _
    rw [Array.getElem?_push] at hscope
    split at hscope
    · next hi =>
      cases hscope
      rw [hi, (hchain.openTags_eq_nil (Nat.le_refl _) hpos).2, ← hsize, tag_push_self]
      exact .outside .nil
    · next hi =>
      have hlt : i < b.tags.size := by
        rw [hsize]
        exact (Array.getElem?_eq_some_iff.mp hscope).1
      rw [tag_push_of_lt _ hlt]
      exact hopened i scope hscope hle

end Nesting

def nesting (bound : Nat) : Builder.Invariant bound where
  holds b := b.Nesting bound
  mayStop := True
  withDraft h _ := ⟨h.scopes_pos, h.tags_size, h.chain, h.opened⟩
  withWords h _ _ := ⟨h.scopes_pos, h.tags_size, h.chain, h.opened⟩
  withBlocks {b} h blocks hblocks := by
    have hframes : Builder.frames { b with blocks } = b.frames := hblocks
    refine ⟨h.scopes_pos, h.tags_size, ?_, ?_⟩
    · rw [hframes]
      exact h.chain
    · rw [hframes]
      exact h.opened
  pushPlain h := h.pushPlain
  closeTop hv h := h.closeTop hv
  openControl hv h kind targets operands start _ := h.openControl hv kind targets operands start
  openScope h kind name params header := h.openScope kind name params header
  push h _ _ hk _ ht := h.push hk ht
  poll h := ⟨fun _ => trivial, h.scopes_pos, h.tags_size, h.chain, h.opened⟩

end Builder

/-- The statements of every scope that holds no more of them than the bound are a nested word. -/
theorem SourceUnit.extract_nested {u : SourceUnit} {bound : Nat} {countdown c : Countdown}
    {x : ExtractedUnit} (h : u.extract bound countdown = (.ok x, c)) :
    ∀ scope ∈ x.scopes, scope.statements.size ≤ bound → ∃ n, Nested 0 0 n scope.statements.toList := by
  have hstart : Builder.Nesting bound { countdown := countdown } := by
    refine ⟨Nat.zero_lt_one, rfl, trivial, ?_⟩
    intro i scope hscope _
    obtain ⟨hi, rfl⟩ := Array.getElem?_eq_some_iff.mp hscope
    cases Nat.lt_one_iff.mp hi
    exact .outside .nil
  obtain ⟨b, x', hx, _, hscopes, _, hblocks, hb⟩ | ⟨_, id, k, c', hx⟩ :=
    u.extract_invariant (Builder.nesting bound) hstart
  · cases h.symm.trans hx
    intro scope hscope hle
    rw [hscopes] at hscope
    obtain ⟨i, hi⟩ := Array.getElem?_of_mem hscope
    have hopened := Builder.Nesting.opened hb i scope hi hle
    rw [Builder.frames, hblocks] at hopened
    cases hopened with
    | outside hw => exact ⟨_, hw⟩
  · cases h.symm.trans hx

/-- A block that replaces another one, a body that is replayed in it, and a closing word too many. -/
theorem SourceUnit.extract_nested_rescue :
    ∃ x c, SourceUnit.extract
        { id := "a.rb", language := .ruby
          content := (Text.Utf8.encode "begin\n a()\nrescue => e\n f \x7b b() \x7d\nend\nend\n").toArray }
        20 .never = (.ok x, c) ∧
      x.scopes.toList.map (fun scope => scope.statements.toList.map (·.controlTag)) =
        [[1, 1, 1, 2, 2, 3, 3, 3, 2]] ∧
      ∀ scope ∈ x.scopes, ∃ n, Nested 0 0 n scope.statements.toList := by
  obtain ⟨x, hx⟩ := SourceUnit.extract_never
    { id := "a.rb", language := .ruby
      content := (Text.Utf8.encode "begin\n a()\nrescue => e\n f \x7b b() \x7d\nend\nend\n").toArray } 20
  have htags : (SourceUnit.extract
      { id := "a.rb", language := .ruby
        content := (Text.Utf8.encode "begin\n a()\nrescue => e\n f \x7b b() \x7d\nend\nend\n").toArray }
      20 .never).1.toOption.map
        (fun x => x.scopes.toList.map fun scope => scope.statements.toList.map (·.controlTag)) =
      some [[1, 1, 1, 2, 2, 3, 3, 3, 2]] := by
    decide +kernel
  rw [hx] at htags
  have htags : x.scopes.toList.map (fun scope => scope.statements.toList.map (·.controlTag)) =
      [[1, 1, 1, 2, 2, 3, 3, 3, 2]] := Option.some.inj htags
  refine ⟨x, _, hx, htags, fun scope hscope => SourceUnit.extract_nested hx scope hscope ?_⟩
  have hmem := List.mem_map_of_mem (f := fun scope : Scope => scope.statements.toList.map (·.controlTag))
    (Array.mem_toList_iff.mpr hscope)
  rw [htags, List.mem_singleton] at hmem
  have hlen := congrArg List.length hmem
  simp only [List.length_map, Array.length_toList, List.length_cons, List.length_nil] at hlen
  omega

end TaintScan
