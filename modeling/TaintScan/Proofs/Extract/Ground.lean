import TaintScan.Proofs.Extract.Deferring
import TaintScan.Proofs.Extract.Turn

/-! # The ground of a statement

A statement may close blocks that stand open before it, but not what is below the block around a body
that is being replayed. `Ground` says where a statement starts and above which blocks, and the states in
the course of the statement are described over it.
-/
namespace TaintScan

/-! ## Open blocks -/

namespace View

/-- The view of all tokens of a unit, in its own language. -/
def entire (v : View) : View := { v with limit := v.tokens.size, dialect := .of v.unit.language }

/-- Nothing but the end of a body closes this block, and what it stands on stays open then. -/
structure Guards (v : View) (block : Block) : Prop where
  single : block.single = false
  indent : block.indent = none
  closesParent : block.closesParent = false
  deferred : block.deferred = true ∨ v.language = .ruby

/-- In Ruby no block ends with one statement, and all bodies of scopes are those of the first `n`. -/
structure Sound (v : View) (n : Nat) (blocks : List Block) : Prop where
  plain : v.language = .ruby → ∀ block ∈ blocks, block.single = false
  framed : ∀ i, .scope i ∈ blocks.map (·.frame) → i < n

theorem Sound.subset {v : View} {n : Nat} {blocks rest : List Block} (h : v.Sound n blocks) (hrest : rest ⊆ blocks) :
    v.Sound n rest :=
  ⟨fun hruby block hblock => h.plain hruby block (hrest hblock), fun i hi => h.framed i (List.map_subset _ hrest hi)⟩

end View

namespace Builder

theorem closeWhileFrom_blocks (v : View) (p : Block → Bool) {blocks : List Block} {b : Builder} (hb : b.blocks = blocks) :
    (closeWhileFrom v p blocks b).blocks = blocks.dropWhile p := by
  induction blocks generalizing b with
  | nil => exact hb
  | cons block rest ih =>
    unfold closeWhileFrom
    rw [List.dropWhile_cons]
    split
    · refine ih ?_
      rw [closeTop_blocks, hb]
      rfl
    · exact hb

theorem finish_blocks (v : View) (b : Builder) : (b.finish v).blocks = b.blocks.dropWhile (·.single) :=
  closeWhileFrom_blocks v _ rfl

theorem openControl_blocks (b : Builder) (v : View) (kind : ControlKind) (targets : List String)
    (operands : List ExprId) (start : Nat) (indent : Option Nat) :
    ∃ tag,
      (b.openControl v kind targets operands start .block indent).blocks =
        { frame := .control tag, indent := indent } :: b.blocks ∧
      (b.openControl v kind targets operands start .single indent).blocks =
        { frame := .control tag, single := true, indent := indent } :: b.blocks ∧
      (b.openControl v kind targets operands start .empty indent).blocks = b.blocks.dropWhile (·.single) := by
  refine ⟨b.tags.getD b.currentScope 0 + 1, ?_, ?_, ?_⟩
  · exact congrArg (_ :: ·) (push_blocks ..)
  · exact congrArg (_ :: ·) (push_blocks ..)
  · unfold openControl
    dsimp only
    rw [finish_blocks, closeTop_blocks, List.tail_cons, push_blocks]

theorem scopeKind_eq (b : Builder) (i : Nat) : b.scopeKind i = b.kinds[i]?.getD .module := by
  simp [scopeKind, kinds]

theorem markPrivate_markPrivate (b : Builder) (on off : Bool) (blocks : List Block) :
    b.markPrivate on (b.markPrivate off blocks) = b.markPrivate on blocks := by
  induction blocks with
  | nil => rfl
  | cons block rest ih =>
    simp only [markPrivate]
    split
    · split
      · simp_all [markPrivate]
      · simp_all [markPrivate]
    · simp_all [markPrivate]

theorem markPrivate_guarded {v : View} {guard : Block} (hg : v.Guards guard) (b : Builder) (on : Bool) (top rest : List Block) :
    ∃ top' guard', v.Guards guard' ∧ (b.markPrivate on (top ++ guard :: rest) = top' ++ guard' :: rest ∨
      b.markPrivate on (top ++ guard :: rest) = top' ++ guard' :: b.markPrivate on rest) := by
  induction top with
  | nil =>
    rcases b.markPrivate_cons on guard rest with h | h
    · exact ⟨[], { guard with privateSection := on }, ⟨hg.single, hg.indent, hg.closesParent, hg.deferred⟩, .inl h⟩
    · exact ⟨[], guard, hg, .inr h⟩
  | cons block top ih =>
    rcases b.markPrivate_cons on block (top ++ guard :: rest) with h | h
    · exact ⟨_ :: top, guard, hg, .inl h⟩
    · obtain ⟨top', guard', hg', ih⟩ := ih
      exact ⟨block :: top', guard', hg', ih.imp (h.trans <| congrArg _ ·) (h.trans <| congrArg _ ·)⟩

/-- Blocks are those of a state, but for the private section of the innermost type body among them, which
statements above them start and end in Ruby. -/
def Remarks (whole : View) (b : Builder) (blocks : List Block) : Prop :=
  blocks = b.blocks ∨ whole.language = .ruby ∧ ∃ on, blocks = b.markPrivate on b.blocks

namespace Remarks

variable {whole : View} {b c : Builder} {blocks : List Block}

theorem map {α : Type} {f : Block → α} (h : b.Remarks whole blocks)
    (hf : ∀ block on, f { block with privateSection := on } = f block) : blocks.map f = b.blocks.map f := by
  rcases h with rfl | ⟨_, on, rfl⟩
  · rfl
  · exact b.map_markPrivate hf on b.blocks

theorem frames (h : b.Remarks whole blocks) : blocks.map (·.frame) = b.blocks.map (·.frame) := h.map fun _ _ => rfl

theorem length (h : b.Remarks whole blocks) : blocks.length = b.blocks.length := by
  simpa using congrArg List.length h.frames

theorem sound {n m : Nat} (h : b.Remarks whole blocks) (hs : whole.Sound n b.blocks) (hle : n ≤ m) : whole.Sound m blocks := by
  refine ⟨fun hruby block hblock => ?_, fun i hi => Nat.lt_of_lt_of_le (hs.framed i (h.frames ▸ hi)) hle⟩
  have hsingle : block.single ∈ blocks.map (·.single) := List.mem_map_of_mem hblock
  rw [h.map fun _ _ => rfl] at hsingle
  obtain ⟨old, hold, heq⟩ := List.mem_map.mp hsingle
  exact heq ▸ hs.plain hruby old hold

/-- To mark the innermost type body once more overrides the mark, also when more scopes have been opened. -/
theorem markPrivate (h : b.Remarks whole blocks) (hs : whole.Sound b.kinds.length b.blocks) (hkinds : b.kinds <+: c.kinds)
    (on : Bool) : c.markPrivate on blocks = b.markPrivate on b.blocks := by
  have hkind (i : Nat) (hi : .scope i ∈ blocks.map (·.frame)) : c.scopeKind i = b.scopeKind i := by
    rw [h.frames] at hi
    obtain ⟨more, hmore⟩ := hkinds
    rw [scopeKind_eq, scopeKind_eq, ← hmore, List.getElem?_append_left (hs.framed i hi)]
  rw [markPrivate_congr on hkind]
  rcases h with rfl | ⟨_, off, rfl⟩
  · rfl
  · exact b.markPrivate_markPrivate on off b.blocks

theorem trans (h : b.Remarks whole c.blocks) (hs : whole.Sound b.kinds.length b.blocks) (hkinds : b.kinds <+: c.kinds)
    (h' : c.Remarks whole blocks) : b.Remarks whole blocks := by
  rcases h' with rfl | ⟨hruby, on, rfl⟩
  · exact h
  · exact .inr ⟨hruby, on, h.markPrivate hs hkinds on⟩

end Remarks

end Builder

/-! ## Grounds -/

/-- Where a statement starts, at which level of nesting, and what it stands on. -/
structure Ground where
  whole : View
  full : whole = whole.entire
  start : Nat
  depth : Fin (maxParseDepth + 1)
  /-- The state before the body that is being replayed, if one is. -/
  base : Option Builder := none
  /-- The block around that body may be closed. -/
  gap : Prop := False
  /-- Indices between which the statement may be known to stay. -/
  stop : Option (Nat × Nat) := none

namespace Ground

/-- The block around the body stays open. -/
class Firm (G : Ground) : Prop where
  firm : ¬G.gap

abbrev allow (G : Ground) (gap : Prop) : Ground := { G with gap := gap }

abbrev startAt (G : Ground) (i : Nat) : Ground := { G with start := i }

instance (G : Ground) [G.Firm] (i : Nat) : (G.startAt i).Firm := ⟨Firm.firm (G := G)⟩

variable {G : Ground} {gap : Prop} {block : Block} {blocks : List Block} {kinds : List ScopeKind}

theorem ruby_iff (G : Ground) : G.whole.language = .ruby ↔ G.whole.dialect.blockStyle = .endKeyword := by
  have hof (language : Language) :
      (Dialect.of language).language = .ruby ↔ (Dialect.of language).blockStyle = .endKeyword := by
    cases language <;> decide
  rw [G.full]
  exact hof _

/-- What holds of the kinds of the scopes and of the open blocks in the course of a statement. -/
structure Stands (G : Ground) (kinds : List ScopeKind) (blocks : List Block) : Prop
    extends G.whole.Sound kinds.length blocks where
  known : ∀ base ∈ G.base, G.whole.Sound base.kinds.length base.blocks ∧ base.kinds <+: kinds
  above : ∀ base ∈ G.base, ∃ rest, base.Remarks G.whole rest ∧
    ((G.gap ∧ blocks = rest) ∨ ∃ top guard, blocks = top ++ guard :: rest ∧ G.whole.Guards guard)

namespace Stands

theorem weaken (h : (G.allow gap).Stands kinds blocks) (hgap : gap → G.gap) : G.Stands kinds blocks :=
  { h with above := fun base hbase => (h.above base hbase).imp fun _ => And.imp_right (Or.imp_left (And.imp_left hgap)) }

theorem loosen (h : G.Stands kinds blocks) (gap : Prop) (hgap : G.gap → gap) : (G.allow gap).Stands kinds blocks :=
  weaken (G := G.allow gap) { h with } hgap

theorem firm (h : (G.allow gap).Stands kinds blocks) (hlt : ∀ base ∈ G.base, base.blocks.length < blocks.length) :
    G.Stands kinds blocks := by
  refine { h with above := fun base hbase => ?_ }
  obtain ⟨rest, hrest, ⟨_, rfl⟩ | habove⟩ := h.above base hbase
  · exact absurd (hlt base hbase) (Nat.not_lt_of_le (Nat.le_of_eq hrest.length))
  · exact ⟨rest, hrest, .inr habove⟩

theorem drop (h : G.Stands kinds blocks) {base : Builder} (hbase : base ∈ G.base) :
    base.Remarks G.whole (blocks.drop (blocks.length - base.blocks.length)) := by
  obtain ⟨rest, hrest, habove⟩ := h.above base hbase
  rw [← hrest.length]
  rcases habove with ⟨_, rfl⟩ | ⟨top, guard, rfl, _⟩
  · rw [Nat.sub_self]
    exact hrest
  · rw [List.append_cons, List.drop_left' (Nat.eq_sub_of_add_eq List.length_append.symm)]
    exact hrest

theorem grow (h : G.Stands kinds blocks) {more : List ScopeKind} (hmore : kinds <+: more) : G.Stands more blocks :=
  { h with
    framed := fun i hi => Nat.lt_of_lt_of_le (h.framed i hi) hmore.length_le
    known := fun base hbase => (h.known base hbase).imp_right (·.trans hmore) }

theorem cons (h : G.Stands kinds blocks) (hsingle : G.whole.language = .ruby → block.single = false)
    (hscope : ∀ i, block.frame = .scope i → i < kinds.length) (hguard : G.gap → G.whole.Guards block) :
    (G.allow False).Stands kinds (block :: blocks) := by
  refine ⟨⟨fun hruby => List.forall_mem_cons.mpr ⟨hsingle hruby, h.plain hruby⟩, fun i hi => ?_⟩, h.known, fun base hbase => ?_⟩
  · exact (List.mem_cons.mp hi).elim (fun hi => hscope i hi.symm) (h.framed i)
  · obtain ⟨rest, hrest, ⟨hgap, rfl⟩ | ⟨top, guard, rfl, hg⟩⟩ := h.above base hbase
    · exact ⟨_, hrest, .inr ⟨[], block, rfl, hguard hgap⟩⟩
    · exact ⟨rest, hrest, .inr ⟨block :: top, guard, rfl, hg⟩⟩

theorem push [hG : G.Firm] (h : G.Stands kinds blocks) (hsingle : G.whole.language = .ruby → block.single = false)
    (hscope : ∀ i, block.frame = .scope i → i < kinds.length) : G.Stands kinds (block :: blocks) :=
  (h.cons hsingle hscope fun hgap => (hG.firm hgap).elim).weaken False.elim

theorem tail [hG : G.Firm] (h : G.Stands kinds (block :: blocks)) :
    (G.allow (G.whole.Guards block)).Stands kinds blocks := by
  refine ⟨h.subset (List.subset_cons_self ..), h.known, fun base hbase => ?_⟩
  obtain ⟨rest, hrest, ⟨hgap, _⟩ | ⟨_ | ⟨_, top⟩, guard, heq, hg⟩⟩ := h.above base hbase
  · exact (hG.firm hgap).elim
  · cases heq
    exact ⟨_, hrest, .inl ⟨hg, rfl⟩⟩
  · exact ⟨rest, hrest, .inr ⟨top, guard, (List.cons.inj heq).2, hg⟩⟩

theorem dropWhile (h : G.Stands kinds blocks) {p : Block → Bool} (hp : ∀ guard, G.whole.Guards guard → p guard = false)
    (hgap : G.gap → ∀ block ∈ blocks, p block = false) : G.Stands kinds (blocks.dropWhile p) := by
  refine ⟨h.subset (List.dropWhile_suffix p).subset, h.known, fun base hbase => ?_⟩
  obtain ⟨rest, hrest, habove⟩ := h.above base hbase
  refine ⟨rest, hrest, ?_⟩
  rcases habove with ⟨hg, rfl⟩ | ⟨top, guard, rfl, hg⟩
  · refine .inl ⟨hg, ?_⟩
    cases blocks with
    | nil => rfl
    | cons block rest => exact List.dropWhile_cons_of_neg (by simp [hgap hg block])
  · refine .inr ⟨top.dropWhile p, guard, ?_, hg⟩
    rw [List.dropWhile_append, List.dropWhile_cons_of_neg (by simp [hp guard hg])]
    split
    · next hempty => rw [List.isEmpty_iff.mp hempty, List.nil_append]
    · rfl

/-- A mark on a private section changes a block above the ground, or the innermost type body below. -/
theorem remark {b : Builder} (h : G.Stands b.kinds b.blocks) (hr : b.Remarks G.whole blocks) (hkinds : b.kinds <+: kinds) :
    G.Stands kinds blocks := by
  refine ⟨hr.sound h.toSound hkinds.length_le, (h.grow hkinds).known, fun base hbase => ?_⟩
  rcases hr with rfl | ⟨hruby, on, rfl⟩
  · exact h.above base hbase
  obtain ⟨rest, hrest, habove⟩ := h.above base hbase
  obtain ⟨hsound, hknown⟩ := h.known base hbase
  have hmark : base.Remarks G.whole (b.markPrivate on rest) := .inr ⟨hruby, on, hrest.markPrivate hsound hknown on⟩
  rcases habove with ⟨hgap, heq⟩ | ⟨top, guard, heq, hg⟩
  · exact ⟨_, hmark, .inl ⟨hgap, congrArg _ heq⟩⟩
  · rw [heq]
    obtain ⟨top', guard', hg', heq | heq⟩ := b.markPrivate_guarded hg on top rest
    · exact ⟨rest, hrest, .inr ⟨top', guard', heq, hg'⟩⟩
    · exact ⟨_, hmark, .inr ⟨top', guard', heq, hg'⟩⟩

end Stands

/-! ## Calm changes above a ground -/

/-- A calm change that leaves a ground as it is. -/
structure Calm (G : Ground) (φ : Builder → Builder) (b : Builder) : Prop extends Builder.Calm φ b where
  stands : G.Stands b.kinds b.blocks → G.Stands b.kinds (φ b).blocks

theorem Stands.finish (v : View) {b : Builder} (h : G.Stands kinds b.blocks) (hgap : G.gap → G.whole.language = .ruby) :
    G.Stands kinds (b.finish v).blocks := by
  rw [Builder.finish_blocks]
  exact h.dropWhile (fun _ hg => hg.single) fun hg => h.plain (hgap hg)

namespace Calm

variable {φ ψ : Builder → Builder} {b : Builder}

theorem same (h : Builder.Calm φ b) (hb : (φ b).blocks = b.blocks) : G.Calm φ b :=
  { h with stands := fun hs => by rw [hb]; exact hs }

theorem comp (h : G.Calm φ b) (h' : G.Calm ψ (φ b)) : G.Calm (fun b => ψ (φ b)) b :=
  { h.toCalm.comp h'.toCalm with
    stands := fun hs => h.keeps.kinds ▸ h'.stands (h.keeps.kinds.symm ▸ h.stands hs) }

theorem words (f : List String → List String) (b : Builder) : G.Calm (fun b => { b with modifiers := f b.modifiers }) b :=
  same ⟨fun _ => rfl, ⟨rfl, rfl, rfl, rfl, rfl, rfl⟩⟩ rfl

theorem emit (v : View) (kind : StatementKind) (targets : List String) (compound : Bool) (operands : List ExprId)
    (start : Nat) (b : Builder) : G.Calm (Builder.emit v kind targets compound operands start) b :=
  same (.emit v kind targets compound operands start b) (b.emit_blocks ..)

theorem setPrivateSection (hruby : G.whole.language = .ruby) (on : Bool) (b : Builder) :
    G.Calm (Builder.setPrivateSection on) b :=
  { Builder.Calm.setPrivateSection on b with
    stands := fun hs => hs.remark (.inr ⟨hruby, on, rfl⟩) List.prefix_rfl }

variable [hG : G.Firm]

theorem finish (v : View) (b : Builder) : G.Calm (Builder.finish v) b :=
  { Builder.Calm.closing (v := v) (·.finish) b with stands := fun hs => hs.finish v fun hgap => (hG.firm hgap).elim }

theorem pushPlain (b : Builder) : G.Calm (fun b => { b with blocks := { frame := .plain } :: b.blocks }) b :=
  ⟨⟨fun _ => rfl, ⟨rfl, rfl, rfl, rfl, rfl, rfl⟩⟩, fun hs => hs.push (fun _ => rfl) nofun⟩

theorem dedent (v : View) (i : Nat) (b : Builder) : G.Calm (Builder.dedent v i) b := by
  let p (block : Block) : Bool := block.indent.any fun level => v.indentOf i ≤ level
  refine { Builder.Calm.closing (v := v) (fun H => (H.dedent · rfl)) b with stands := fun hs => ?_ }
  have hclosed : G.Stands b.kinds (b.closeWhile v p).blocks := by
    unfold Builder.closeWhile
    rw [Builder.closeWhileFrom_blocks v p rfl]
    exact hs.dropWhile (fun guard hg => by simp [p, hg.indent]) fun hgap => (hG.firm hgap).elim
  unfold Builder.dedent
  dsimp only
  split
  · exact hclosed.finish v fun hgap => (hG.firm hgap).elim
  · exact hclosed

theorem openControl (v : View) (kind : ControlKind) (targets : List String) (operands : List ExprId) (start : Nat)
    {body : Body} (hbody : body = .single → G.whole.language ≠ .ruby) (indent : Option Nat) (b : Builder) :
    G.Calm (Builder.openControl v kind targets operands start body indent) b := by
  refine { Builder.Calm.openControl v kind targets operands start body indent b with stands := fun hs => ?_ }
  obtain ⟨tag, hblock, hsingle, hempty⟩ := b.openControl_blocks v kind targets operands start indent
  cases body with
  | block =>
    rw [hblock]
    exact hs.push (fun _ => rfl) nofun
  | single =>
    rw [hsingle]
    exact hs.push (fun hruby => (hbody rfl hruby).elim) nofun
  | empty =>
    rw [hempty]
    exact b.finish_blocks v ▸ (finish v b).stands hs

end Calm

/-- The end of a body closes the block around it, and in Ruby no block that ends with one statement is below. -/
theorem Stands.close [G.Firm] (v : View) {block : Block} {rest : List Block} {b : Builder}
    (hb : b.blocks = block :: rest) (h : G.Stands kinds (block :: rest)) :
    (G.allow True).Stands kinds (if block.deferred then b.closeTop v else (b.closeTop v).finish v).blocks := by
  have htail : (G.allow (G.whole.Guards block)).Stands kinds (b.closeTop v).blocks := by
    rw [Builder.closeTop_blocks, hb]
    exact h.tail
  split
  · exact htail.loosen True fun _ => trivial
  · next hdeferred =>
    exact (htail.finish v fun hg => hg.deferred.resolve_left hdeferred).loosen True fun _ => trivial

theorem Stands.closeBrace [G.Firm] (v : View) {b : Builder} (h : G.Stands kinds b.blocks) :
    (G.allow True).Stands kinds (b.closeBrace v).blocks := by
  unfold Builder.closeBrace
  split
  · exact h.loosen True fun _ => trivial
  · next hb =>
    rw [hb] at h
    exact h.close v hb

theorem Stands.closeEnd [G.Firm] (v : View) {b : Builder} (h : G.Stands kinds b.blocks) :
    (G.allow True).Stands kinds (b.closeEnd v).blocks := by
  suffices hfrom : ∀ {blocks : List Block} {b : Builder}, b.blocks = blocks → G.Stands kinds blocks →
      (G.allow True).Stands kinds (Builder.closeEndFrom v blocks b).blocks from hfrom rfl h
  intro blocks
  induction blocks with
  | nil =>
    intro b hb hs
    unfold Builder.closeEndFrom
    rw [hb]
    exact hs.loosen True fun _ => trivial
  | cons block rest ih =>
    intro b hb hs
    unfold Builder.closeEndFrom
    dsimp only
    split
    · next hparent =>
      refine ih (by rw [Builder.closeTop_blocks, hb]; rfl) (hs.tail.weaken fun hg => ?_)
      cases hparent.symm.trans hg.closesParent
    · exact hs.close v hb

end Ground

/-! ## States in the course of a statement -/

/-- Bodies apart between two indices, or irregular, with what is recorded in a state. -/
def Builder.Settles (whole : View) (first last : Nat) (bodies : List Deferred) (b : Builder) : Prop :=
  whole.Irregular b.draft.arena.top bodies ∨ Deferred.Apart first last bodies

/-- No body waits to be replayed, the bodies of scopes that are open are those of recorded scopes, and in Ruby no
open block ends with one statement. -/
structure Builder.Idle (whole : View) (b : Builder) : Prop extends whole.Sound b.kinds.length b.blocks where
  clear : b.draft.deferred = #[]

/-- Some bodies are to be replayed: no others wait, and they are settled and inside the statement. -/
structure Builder.Ready (whole v : View) (bodies : List Deferred) (b : Builder) : Prop extends b.Idle whole where
  settles : b.Settles whole v.stmtStart b.pos bodies
  inside : ∀ a ∈ bodies, v.stmtStart < a.body

/-- Some bodies have been replayed: the position is behind them, and the open blocks are the same, but for a mark. -/
structure Builder.Replayed (whole : View) (bodies : List Deferred) (b c : Builder) : Prop where
  clear : c.draft.deferred = #[]
  depth : c.draft.depth = b.draft.depth
  kinds : b.kinds <+: c.kinds
  blocks : b.Remarks whole c.blocks
  le : b.pos ≤ c.pos
  past : ∀ a ∈ bodies, a.close < c.pos

theorem Builder.Idle.replayed {whole : View} {bodies : List Deferred} {b c : Builder} (h : b.Idle whole)
    (hr : b.Replayed whole bodies c) : c.Idle whole :=
  { hr.blocks.sound h.toSound hr.kinds.length_le with clear := hr.clear }

theorem Builder.Idle.stands {G : Ground} {b : Builder} (h : b.Idle G.whole) (hG : G.base = none) : G.Stands b.kinds b.blocks :=
  ⟨h.toSound, by simp [hG], by simp [hG]⟩

/-- A view in which statements of a unit are read. -/
def View.CutOf (v whole : View) : Prop := ∃ limit start, limit ≤ whole.limit ∧ v = whole.cut limit start

theorem View.CutOf.part {v whole : View} (hv : v.CutOf whole) : v.PartOf whole := by
  obtain ⟨limit, start, hle, rfl⟩ := hv
  exact ⟨rfl, rfl, hle⟩

namespace Ground

/-- The statement is read in a view. -/
structure Sees (G : Ground) (v : View) : Prop where
  cut : v.CutOf G.whole
  start : v.stmtStart = G.start
  lt : G.start < v.limit
  first : ∀ i ∈ G.stop, i.1 ≤ G.start

/-- In the course of a statement. -/
structure Holds (G : Ground) (b : Builder) : Prop where
  le : G.start ≤ b.pos
  depth : b.draft.depth = G.depth
  stands : G.Stands b.kinds b.blocks

structure Clear (G : Ground) (b : Builder) : Prop extends G.Holds b where
  clear : b.draft.deferred = #[]

/-- Nothing waits and the position is known. -/
structure Rests (G : Ground) (i : Nat) (b : Builder) : Prop extends G.Clear b where
  pos : b.pos = i

/-- The statement has been read up to the index `i`, and the bodies in it are settled. -/
structure Waits (G : Ground) (i : Nat) (b : Builder) : Prop extends G.Holds b where
  pos : b.pos = i
  settles : b.Settles G.whole G.start i b.draft.deferred.toList
  inside : ∀ a ∈ b.draft.deferred, G.start < a.body

/-- It has been read up to the index `i` or further. -/
def Reads (G : Ground) (i : Nat) (b : Builder) : Prop := ∃ j, i ≤ j ∧ G.Waits j b

/-- Some bodies have been taken out of the statement that ends at the index `i`. -/
structure Taken (G : Ground) (i : Nat) (bodies : List Deferred) (b : Builder) : Prop extends G.Clear b where
  pos : b.pos = i
  settles : b.Settles G.whole G.start i bodies
  inside : ∀ a ∈ bodies, G.start < a.body

/-- Besides, the bodies end before an index. -/
structure Heads (G : Ground) (last i : Nat) (b : Builder) : Prop extends G.Waits i b where
  ends : ∀ a ∈ b.draft.deferred, a.close < last

/-- The statement is over. Unless it has not moved, the block around the body may be closed. -/
structure Ended (G : Ground) (b : Builder) : Prop where
  clear : (G.allow True).Clear b
  unmoved : b.pos = G.start → G.Clear b

variable {G : Ground} {i j last : Nat} {gap : Prop} {bodies : List Deferred} {v : View} {φ : Builder → Builder} {b c : Builder}

theorem Sees.language (h : G.Sees v) : v.language = G.whole.language := h.cut.part.language

theorem Sees.not_ruby (h : G.Sees v) (hstyle : v.dialect.blockStyle ≠ .endKeyword) : G.whole.language ≠ .ruby :=
  fun hruby => hstyle (h.cut.part.dialect ▸ G.ruby_iff.mp hruby)

theorem Sees.le_headerEnd (h : G.Sees v) (hi : G.start ≤ i) : G.start ≤ v.headerEnd i :=
  Nat.le_trans (Nat.le_min.mpr ⟨hi, Nat.le_of_lt h.lt⟩) (v.headerEnd_bounds i).1

theorem Sees.allow (h : G.Sees v) (gap : Prop) : (G.allow gap).Sees v := { h with }

theorem Holds.keep (h : G.Holds b) (hφ : G.Calm φ b) : G.Holds (φ b) :=
  ⟨h.le.trans_eq hφ.keeps.pos.symm, hφ.keeps.depth.trans h.depth, hφ.keeps.kinds.symm ▸ hφ.stands h.stands⟩

theorem Holds.seek (h : G.Holds b) (hj : G.start ≤ j) : G.Holds (b.seek j) := ⟨hj, h.depth, h.stands⟩

theorem Clear.keep (h : G.Clear b) (hφ : G.Calm φ b) : G.Clear (φ b) :=
  ⟨h.toHolds.keep hφ, hφ.keeps.deferred.trans h.clear⟩

theorem Clear.seek (h : G.Clear b) (hj : G.start ≤ j) : G.Clear (b.seek j) := ⟨h.toHolds.seek hj, h.clear⟩

theorem Clear.loosen (h : G.Clear b) (gap : Prop) (hgap : G.gap → gap) : (G.allow gap).Clear b :=
  ⟨⟨h.le, h.depth, h.stands.loosen gap hgap⟩, h.clear⟩

theorem Clear.ended (h : G.Clear b) : G.Ended b := ⟨h.loosen True fun _ => trivial, fun _ => h⟩

theorem Clear.startAt (h : G.Clear b) (hi : i ≤ b.pos) : (G.startAt i).Clear b :=
  ⟨⟨hi, h.depth, { h.stands with }⟩, h.clear⟩

theorem Clear.ofStart (h : (G.startAt i).Clear b) (hi : G.start ≤ i) : G.Clear b :=
  ⟨⟨Nat.le_trans hi h.le, h.depth, { h.stands with }⟩, h.clear⟩

theorem Clear.replayed (h : G.Clear b) (hr : b.Replayed G.whole bodies c) : G.Clear c :=
  ⟨⟨Nat.le_trans h.le hr.le, hr.depth.trans h.depth, h.stands.remark hr.blocks hr.kinds⟩, hr.clear⟩

theorem Clear.seekFrom (h : G.Clear b) (hij : i ≤ j) : (G.startAt i).Clear (b.seek j) :=
  ⟨⟨hij, h.depth, { h.stands with }⟩, h.clear⟩

theorem Clear.idle (h : G.Clear b) : b.Idle G.whole := { h.stands with clear := h.clear }

theorem Rests.keep (h : G.Rests i b) (hφ : G.Calm φ b) : G.Rests i (φ b) :=
  ⟨h.toClear.keep hφ, hφ.keeps.pos.trans h.pos⟩

theorem Rests.advance (h : G.Rests i b) (k : Nat) : G.Rests (i + k) (b.seek (b.pos + k)) :=
  ⟨h.toClear.seek (Nat.le_add_right_of_le h.le), congrArg (· + k) h.pos⟩

theorem Rests.waits (h : G.Rests i b) : G.Waits i b := by
  refine ⟨h.toHolds, h.pos, .inr ?_, ?_⟩
  · rw [h.clear]
    exact .nil _ _
  · rw [h.clear]
    simp

theorem Waits.keep (h : G.Waits i b) (hφ : G.Calm φ b) : G.Waits i (φ b) := by
  refine ⟨h.toHolds.keep hφ, hφ.keeps.pos.trans h.pos, ?_, hφ.keeps.deferred.symm ▸ h.inside⟩
  unfold Builder.Settles
  rw [hφ.keeps.deferred, hφ.keeps.arena]
  exact h.settles

theorem Waits.seek (h : G.Waits i b) (hj : i ≤ j) : G.Waits j (b.seek j) :=
  ⟨h.toHolds.seek (Nat.le_trans (h.pos ▸ h.le) hj), rfl,
    h.settles.imp id fun hapart => hapart.mono (Nat.le_refl _) hj, h.inside⟩

theorem Waits.advance (h : G.Waits i b) (k : Nat) : G.Waits (i + k) (b.seek (b.pos + k)) := by
  rw [h.pos]
  exact h.seek (Nat.le_add_right i k)

theorem Waits.reads (h : G.Waits i b) : G.Reads i b := ⟨i, Nat.le_refl i, h⟩

theorem Waits.take (h : G.Waits i b) : G.Taken i b.draft.deferred.toList { b with draft.deferred := #[] } :=
  ⟨⟨⟨h.le, h.depth, h.stands⟩, rfl⟩, h.pos, h.settles, fun a ha => h.inside a (Array.mem_toList_iff.mp ha)⟩

theorem Heads.keep (h : G.Heads last i b) (hφ : G.Calm φ b) : G.Heads last i (φ b) :=
  ⟨h.toWaits.keep hφ, hφ.keeps.deferred.symm ▸ h.ends⟩

theorem Rests.heads (h : G.Rests i b) (last : Nat) : G.Heads last i b := by
  refine ⟨h.waits, ?_⟩
  rw [h.clear]
  simp

theorem Taken.keep (h : G.Taken i bodies b) (hφ : G.Calm φ b) : G.Taken i bodies (φ b) := by
  refine ⟨h.toClear.keep hφ, hφ.keeps.pos.trans h.pos, ?_, h.inside⟩
  unfold Builder.Settles
  rw [hφ.keeps.arena]
  exact h.settles

theorem Taken.seek (h : G.Taken i bodies b) (hj : i ≤ j) : G.Taken j bodies (b.seek j) :=
  ⟨h.toClear.seek (Nat.le_trans (h.pos ▸ h.le) hj), rfl,
    h.settles.imp id fun hapart => hapart.mono (Nat.le_refl _) hj, h.inside⟩

theorem Taken.ready (h : G.Taken i bodies b) (hv : G.Sees v) : b.Ready G.whole v bodies :=
  { h.idle with settles := h.pos.symm ▸ hv.start.symm ▸ h.settles, inside := hv.start.symm ▸ h.inside }

end Ground
end TaintScan
