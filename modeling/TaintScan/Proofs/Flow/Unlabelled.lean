import TaintScan.Proofs.Flow.History
import TaintScan.Proofs.Flow.Writes

/-! # Values without labels

A value that has lost all labels has no node, but keeps the mark of a partial sanitizer. As long as no
full sanitizer empties a marked value, all that has no label is clean, and joining it changes nothing.
-/
namespace TaintScan

namespace Taint

variable {t a b : Taint}

def Scrubbed (t : Taint) : Prop := t.isTainted = false → t = .clean

/-- Taking labels away leaves none, but the mark of a partial sanitizer. -/
structure LeavesMark (t : Taint) (removes : LabelSet) : Prop where
  tainted : t.isTainted = true
  adjacent : t.adjacent = true
  emptied : (t.remove removes).isTainted = false

theorem remove_eq_clean_iff (t : Taint) (removes : LabelSet) :
    t.remove removes = .clean ↔ (t.remove removes).isTainted = false ∧ t.adjacent = false := by
  constructor
  · intro h
    have hadjacent : (t.remove removes).adjacent = t.adjacent := rfl
    rw [h] at hadjacent ⊢
    exact ⟨rfl, hadjacent.symm⟩
  · rintro ⟨hempty, hadjacent⟩
    have hleft : (t.labels.without removes).isEmpty = true := by simpa [isTainted, remove] using hempty
    have hlabels : t.labels.without removes = .empty := by
      generalize t.labels.without removes = left at hleft
      obtain ⟨u, s⟩ := left
      cases u <;> cases s <;> simp [LabelSet.isEmpty, LabelSet.empty] at hleft ⊢
    rw [remove, hlabels, hadjacent]
    rfl

theorem remove_labels_eq_clean_iff (t : Taint) : t.remove t.labels = .clean ↔ t.adjacent = false := by
  rw [remove_eq_clean_iff]
  refine and_iff_right ?_
  simp [isTainted, remove, LabelSet.without, LabelSet.isEmpty]

theorem join_clean (h : t.isTainted = true) : t.join .clean = t := by
  rw [join, if_pos h]
  simp [clean, LabelSet.union, LabelSet.empty]

theorem clean_join (t : Taint) : clean.join t = t := by
  simp [join, clean, isTainted, LabelSet.isEmpty, LabelSet.union, LabelSet.empty]

theorem Anchored.node_eq_none {size : Nat} (h : t.Anchored size) (hclean : t.isTainted = false) :
    t.node = none := by
  have hsome := h.isSome_node
  rw [hclean, Option.isSome_eq_false_iff, Option.isNone_iff_eq_none] at hsome
  exact hsome

namespace Scrubbed

theorem of_isTainted (h : t.isTainted = true) : t.Scrubbed := by
  intro hclean
  cases h.symm.trans hclean

theorem withNode (h : t.isTainted = true) (node : Option NodeId) : { t with node }.Scrubbed := by
  have h : { t with node }.isTainted = true := h
  exact of_isTainted h

theorem of_clean : Taint.clean.Scrubbed := fun _ => rfl

theorem join (ha : a.Scrubbed) (hb : b.Scrubbed) : (a.join b).Scrubbed := by
  intro h
  rw [isTainted_join, Bool.or_eq_false_iff] at h
  rw [ha h.1, hb h.2]
  rfl

theorem joinAll {taints : List Taint} (h : ∀ t ∈ taints, t.Scrubbed) : (Taint.joinAll taints).Scrubbed := by
  have hfold : ∀ start : Taint, start.Scrubbed → (taints.foldl Taint.join start).Scrubbed := by
    induction taints with
    | nil => exact fun _ hstart => hstart
    | cons t rest ih =>
      obtain ⟨ht, hrest⟩ := List.forall_mem_cons.mp h
      exact fun start hstart => ih hrest _ (hstart.join ht)
  exact hfold _ of_clean

theorem marked (h : t.Scrubbed) : { t with adjacent := t.adjacent || t.isTainted }.Scrubbed := by
  intro hclean
  have hclean : t.isTainted = false := hclean
  rw [h hclean]
  rfl

theorem remove (h : t.Scrubbed) {removes : LabelSet} (hno : ¬t.LeavesMark removes) :
    (t.remove removes).Scrubbed := by
  intro hempty
  cases htainted : t.isTainted with
  | false =>
    rw [h htainted]
    rfl
  | true =>
    refine (t.remove_eq_clean_iff removes).mpr ⟨hempty, ?_⟩
    cases hadjacent : t.adjacent with
    | false => rfl
    | true => exact absurd ⟨htainted, hadjacent, hempty⟩ hno

end Scrubbed

theorem LeavesMark.not_scrubbed {removes : LabelSet} (h : t.LeavesMark removes) :
    ¬(t.remove removes).Scrubbed := by
  intro hscrubbed
  have hadjacent := ((t.remove_eq_clean_iff removes).mp (hscrubbed h.emptied)).2
  cases h.adjacent.symm.trans hadjacent

theorem isTainted_of_exported {t' : Taint} (h : t.exported? = some t') : t'.isTainted = true := by
  unfold exported? at h
  split at h
  · cases h
    rfl
  · cases h

end Taint

def Flow.Scrubbed (f : Flow) : Prop := ∀ (key : String) (t : Taint), f.facts[key]? = some t → t.Scrubbed

theorem Flow.Scrubbed.insertFact {f : Flow} (h : f.Scrubbed) (key : String) {t : Taint} (ht : t.Scrubbed) :
    { f with facts := f.facts.insert key t }.Scrubbed := by
  intro key' t' ht'
  dsimp only at ht'
  rw [Std.HashMap.getElem?_insert] at ht'
  split at ht'
  · cases ht'
    exact ht
  · exact h key' t' ht'

theorem Flow.Scrubbed.of_facts {f g : Flow} (h : f.Scrubbed) (hfacts : g.facts = f.facts) : g.Scrubbed := by
  intro key t ht
  rw [hfacts] at ht
  exact h key t ht

namespace Site

variable {s : Site} {st : Statement} {f : Flow}

/-! ## Expressions -/

theorem lookup_scrubbed (hf : f.Scrubbed) (path : String) :
    ((s.lookup? f.facts path).getD .clean).Scrubbed := by
  cases hlookup : s.lookup? f.facts path with
  | none => exact .of_clean
  | some t =>
    obtain ⟨key, _, hfact | ⟨_, _, t', _, hexported⟩⟩ := lookup?_eq_some hlookup
    · exact hf key t hfact
    · exact .of_isTainted (Taint.isTainted_of_exported hexported)

theorem isTainted_labelled_join (l : Label) (node : NodeId) (t : Taint) :
    ((Taint.labelled (.of l) node).join t).isTainted = true := by
  rw [Taint.isTainted_join]
  cases l <;> rfl

theorem read_scrubbed (hf : f.Scrubbed) (path : String) (span : Span) : (s.read path span f).1.Scrubbed := by
  rw [read_apply]
  cases s.registry.sourceOfPath? path s.language with
  | some source => exact .of_isTainted (isTainted_labelled_join _ _ _)
  | none =>
    dsimp only
    exact lookup_scrubbed hf path

/-- A call is a full sanitizer that empties a marked value. -/
def EmptiesMarked (s : Site) (callee : String) (constructs : Bool) (input : Taint) : Prop :=
  s.registry.sourceOfCall? callee constructs s.language = none ∧
    ∃ rule removes, s.registry.sanitizerOfCall? callee constructs s.language = some ⟨rule, removes, false⟩ ∧
      input.LeavesMark removes

theorem callResult_scrubbed {input : Taint} (hinput : input.Scrubbed) (span : Span) {callee : String}
    {constructs : Bool} (hno : ¬s.EmptiesMarked callee constructs input) (f : Flow) :
    (s.callResult span callee constructs input f).1.Scrubbed := by
  rw [callResult_apply]
  cases hsource : s.registry.sourceOfCall? callee constructs s.language with
  | some source => exact .of_isTainted (isTainted_labelled_join _ _ _)
  | none =>
    cases hhit : s.registry.sanitizerOfCall? callee constructs s.language with
    | none => exact hinput
    | some hit =>
      obtain ⟨rule, removes, isPartial⟩ := hit
      cases isPartial with
      | true => exact hinput.marked
      | false => exact hinput.remove fun h => hno ⟨hsource, rule, removes, hhit, h⟩

theorem EmptiesMarked.not_scrubbed {input : Taint} {callee : String} {constructs : Bool}
    (h : s.EmptiesMarked callee constructs input) (span : Span) (f : Flow) :
    ¬(s.callResult span callee constructs input f).1.Scrubbed := by
  obtain ⟨hsource, rule, removes, hhit, hmark⟩ := h
  rw [callResult_apply, hsource, hhit]
  exact hmark.not_scrubbed

def MarksAt (s : Site) (e : Expr) (taints : List Taint) : Prop :=
  ∃ callee receiver args constructs, e.kind = .call callee receiver args constructs ∧
    s.EmptiesMarked callee constructs ((Taint.joinAll (taints.take receiver.toList.length)).join
      (.joinAll (taints.drop receiver.toList.length)))

theorem finish_scrubbed (hf : f.Scrubbed) (e : Expr) (taints : List Taint) : (s.finish e taints f).2.Scrubbed := by
  rcases s.finish_facts e taints f with hsame | ⟨path, node, hstores, hfacts⟩
  · exact hf.of_facts hsame
  · have htainted : (((s.lookup? f.facts path).getD .clean).join (.joinAll (taints.drop 1))).isTainted = true := by
      rw [Taint.isTainted_join, hstores.tainted, Bool.or_true]
    generalize ((s.lookup? f.facts path).getD .clean).join (.joinAll (taints.drop 1)) = stored at htainted hfacts
    have hstored : { stored with node := some node }.Scrubbed := .withNode htainted _
    exact (hf.insertFact (factKey path) hstored).of_facts hfacts

theorem finish_value_call (s : Site) (span : Span) (callee : String) (receiver : Option ExprId)
    (args : List ExprId) (constructs : Bool) (taints : List Taint) (f : Flow) :
    ∃ g, (s.finish ⟨.call callee receiver args constructs, span⟩ taints f).1 =
      (s.callResult span callee constructs ((Taint.joinAll (taints.take receiver.toList.length)).join
        (.joinAll (taints.drop receiver.toList.length))) g).1 := by
  dsimp only [finish]
  unfold finishCall
  simp only [Track.bind_apply]
  split
  · exact ⟨_, rfl⟩
  · exact ⟨_, rfl⟩

theorem finish_value_scrubbed (hf : f.Scrubbed) {e : Expr} {taints : List Taint}
    (ht : ∀ t ∈ taints, t.Scrubbed) (hno : ¬s.MarksAt e taints) : (s.finish e taints f).1.Scrubbed := by
  obtain ⟨kind, span⟩ := e
  cases kind with
  | literal kind value => exact .of_clean
  | «variable» path => exact read_scrubbed hf path span
  | concat parts => exact .joinAll ht
  | compound parts => exact .joinAll ht
  | call callee receiver args constructs =>
    obtain ⟨g, hvalue⟩ := s.finish_value_call span callee receiver args constructs taints f
    have hreceivers := Taint.Scrubbed.joinAll fun t h =>
      ht t (List.mem_of_mem_take (i := receiver.toList.length) h)
    have hargs := Taint.Scrubbed.joinAll fun t h => ht t (List.mem_of_mem_drop (i := receiver.toList.length) h)
    rw [hvalue]
    exact callResult_scrubbed (hreceivers.join hargs) span
      (fun h => hno ⟨callee, receiver, args, constructs, rfl, h⟩) g

theorem MarksAt.not_scrubbed {e : Expr} {taints : List Taint} (h : s.MarksAt e taints) (f : Flow) :
    ¬(s.finish e taints f).1.Scrubbed := by
  obtain ⟨kind, span⟩ := e
  obtain ⟨callee, receiver, args, constructs, hkind, hempties⟩ := h
  cases hkind
  obtain ⟨g, hvalue⟩ := s.finish_value_call span callee receiver args constructs taints f
  rw [hvalue]
  exact hempties.not_scrubbed span g

/-! ## Statements -/

/-- While operands are evaluated, a call empties a marked value. -/
def MarksIn (s : Site) (ids : List ExprId) (f : Flow) : Prop :=
  ∃ id g e, s.Visits ids f id g ∧ s.arena.exprs[id]? = some e ∧ s.MarksAt e (Track.each s.eval e.children g).1

/-- A full sanitizer empties a marked value when a statement takes effect: as a call among its operands,
or as a call on its own that cleans a variable. -/
def LeavesMark (s : Site) (st : Statement) (f : Flow) : Prop :=
  st.evaluates = true ∧ (s.MarksIn st.operands f ∨
    ∃ removes key t, s.Sanitizes st removes key ∧
      (Track.each s.eval st.operands f).2.facts[key]? = some t ∧ t.LeavesMark removes)

section

variable {ids : List ExprId} (hno : ¬s.MarksIn ids f)
include hno

theorem keepsAt_of_not_marks (id : ExprId) (g : Flow) (hv : s.Visits ids f id g) :
    s.KeepsAt Flow.Scrubbed Taint.Scrubbed id g := fun e he hg ht =>
  ⟨finish_scrubbed hg e _, finish_value_scrubbed hg ht fun h => hno ⟨id, g, e, hv, he, h⟩⟩

theorem evalAll_scrubbed (ha : s.arena.Sound) (hf : f.Scrubbed) :
    (Track.each s.eval ids f).2.Scrubbed ∧ ∀ t ∈ (Track.each s.eval ids f).1, t.Scrubbed :=
  evalAll_of_visits Flow.Scrubbed Taint.Scrubbed ha.descends .of_clean (keepsAt_of_not_marks hno) hf

theorem visited_scrubbed (ha : s.arena.Sound) (hf : f.Scrubbed) {id : ExprId} {g : Flow}
    (hv : s.Visits ids f id g) : (s.eval id g).1.Scrubbed := by
  have hkeeps := keepsAt_of_not_marks hno
  have hg := hv.inv_of_start Flow.Scrubbed Taint.Scrubbed ha.descends .of_clean hkeeps hf
  exact (hv.eval_keeps Flow.Scrubbed Taint.Scrubbed ha.descends .of_clean hkeeps hg).2

end

theorem written_scrubbed (hf : f.Scrubbed) {value : Taint} (hvalue : value.Scrubbed)
    (secretTargets : List String) (target : String) :
    (s.written st secretTargets value target f.facts).Scrubbed := by
  have hbase : (if st.compound then ((s.lookup? f.facts target).getD .clean).join value else value).Scrubbed := by
    split
    · exact (lookup_scrubbed hf target).join hvalue
    · exact hvalue
  unfold written
  dsimp only
  split
  · exact .of_isTainted (Taint.isTainted_of_contains (l := .secret) (by simp [LabelSet.contains, LabelSet.insert,
      LabelSet.union, LabelSet.of]))
  · exact hbase

theorem assign_scrubbed (hf : f.Scrubbed) {value : Taint} (hvalue : value.Scrubbed)
    (secretTargets : List String) (target : String) :
    (s.assign st secretTargets value target f).2.Scrubbed := by
  have hg := hf.of_facts (s.reportTargetSinks_facts target st.operands.head? value f)
  rw [assign_apply]
  dsimp only
  generalize (s.reportTargetSinks target st.operands.head? value f).2 = g at hg
  have hwritten : (s.written st secretTargets value target g.facts).Scrubbed :=
    written_scrubbed hg hvalue secretTargets target
  split
  · next htainted =>
    have hdefined : (s.define (s.written st secretTargets value target g.facts).node g).2.Scrubbed :=
      hg.of_facts (by rw [define_apply])
    exact hdefined.insertFact (factKey target) (.withNode htainted (some g.nodes.size))
  · next hclean =>
    rw [hwritten (by simpa using hclean)]
    exact hg.insertFact (factKey target) .of_clean

theorem bound_scrubbed (s : Site) (st : Statement) (kind : ControlKind) (operands : Taint) (f : Flow) :
    (s.bound st kind operands f).1.Scrubbed := by
  unfold bound
  split
  · exact .of_isTainted rfl
  · split
    · exact .of_isTainted rfl
    · split
      · next htainted => exact .withNode htainted _
      · exact .of_clean

section

variable (ha : s.arena.Sound) (hf : f.Scrubbed) (hno : ¬s.LeavesMark st f) (hevaluates : st.evaluates = true)
include ha hf hno hevaluates

theorem operands_scrubbed : (Track.each s.eval st.operands f).2.Scrubbed ∧
    ∀ t ∈ (Track.each s.eval st.operands f).1, t.Scrubbed :=
  evalAll_scrubbed (fun h => hno ⟨hevaluates, Or.inl h⟩) ha hf

theorem assignment_scrubbed (secretTargets : List String) : (s.assignment st secretTargets f).2.Scrubbed := by
  obtain ⟨hfacts, hvalues⟩ := operands_scrubbed ha hf hno hevaluates
  refine Track.each_inv Flow.Scrubbed (fun target _ g hg => assign_scrubbed hg ?_ secretTargets target) hfacts
  generalize (Track.each s.eval st.operands f).1 = taints at hvalues
  cases taints with
  | nil => exact .of_clean
  | cons t rest => exact hvalues t List.mem_cons_self

theorem expression_scrubbed : (s.expression st f).2.Scrubbed := by
  have hfacts := (operands_scrubbed ha hf hno hevaluates).1
  intro key t ht
  by_cases hsanitizes : ∃ removes, s.Sanitizes st removes key
  · obtain ⟨removes, hsanitizes⟩ := hsanitizes
    rw [expression_getElem?_of_sanitizes hsanitizes] at ht
    obtain ⟨before, hbefore, rfl⟩ := Option.map_eq_some_iff.mp ht
    refine (hfacts key before hbefore).remove fun hmark => ?_
    exact hno ⟨hevaluates, Or.inr ⟨removes, key, before, hsanitizes, hbefore, hmark⟩⟩
  · rw [expression_getElem?_of_not_sanitizes (not_exists.mp hsanitizes)] at ht
    exact hfacts key t ht

end

theorem effect_scrubbed (ha : s.arena.Sound) (hf : f.Scrubbed) (hno : ¬s.LeavesMark st f)
    (secretTargets : List String) : (s.effect st secretTargets f).2.Scrubbed := by
  unfold effect
  cases hkind : st.kind with
  | unparsed => exact hf
  | controlClose => exact hf
  | assignment => exact assignment_scrubbed ha hf hno (by rw [Statement.evaluates, hkind]) secretTargets
  | declaration => exact assignment_scrubbed ha hf hno (by rw [Statement.evaluates, hkind]) secretTargets
  | call => exact expression_scrubbed ha hf hno (by rw [Statement.evaluates, hkind])
  | expression => exact expression_scrubbed ha hf hno (by rw [Statement.evaluates, hkind])
  | controlOpen kind =>
    have hfacts := (operands_scrubbed ha hf hno (by rw [Statement.evaluates, hkind])).1
    dsimp only
    rw [openBlock_apply]
    dsimp only
    split
    · exact hfacts
    · exact Track.each_inv Flow.Scrubbed
        (fun target _ g hg => hg.insertFact (factKey target) (bound_scrubbed s st kind _ _))
        (hfacts.of_facts (s.bound_facts st kind _ _))

/-- A value that a statement evaluates when a scope has come to it. -/
def Finds (s : Site) (st : Statement) (flow : Flow) (v : Taint) : Prop :=
  ∃ id g, (s.atStatement st flow).Visits st.operands (s.matched st flow) id g ∧
    ((s.atStatement st flow).eval id g).1 = v

theorem finds_scrubbed_iff {flow : Flow} : (∀ v, s.Finds st flow v → v.Scrubbed) ↔
    ∀ id g, (s.atStatement st flow).Visits st.operands (s.matched st flow) id g →
      ((s.atStatement st flow).eval id g).1.Scrubbed := by
  constructor
  · exact fun h id g hv => h _ ⟨id, g, hv, rfl⟩
  · rintro h _ ⟨id, g, hv, rfl⟩
    exact h id g hv

/-- All that has no label is clean, while a statement evaluates its operands and behind it, just if it
empties no marked value. -/
theorem effect_scrubbed_iff (ha : s.arena.Sound) (hf : f.Scrubbed) (hevaluates : st.evaluates = true)
    (secretTargets : List String) :
    ((∀ id g, s.Visits st.operands f id g → (s.eval id g).1.Scrubbed) ∧
      (s.effect st secretTargets f).2.Scrubbed) ↔ ¬s.LeavesMark st f := by
  constructor
  · rintro ⟨hvalues, hfacts⟩ ⟨_, ⟨id, g, e, hv, he, hmarks⟩ | ⟨removes, key, t, hsanitizes, ht, hmark⟩⟩
    · have hvalue := hvalues id g hv
      rw [eval_eq ha.descends he] at hvalue
      exact hmarks.not_scrubbed _ hvalue
    · rw [effect_of_sanitizes hsanitizes] at hfacts
      refine hmark.not_scrubbed (hfacts key _ ?_)
      rw [expression_getElem?_of_sanitizes hsanitizes, ht]
      rfl
  · intro hno
    have hin : ¬s.MarksIn st.operands f := fun h => hno ⟨hevaluates, Or.inl h⟩
    exact ⟨fun id g hv => visited_scrubbed hin ha hf hv, effect_scrubbed ha hf hno secretTargets⟩

/-! ## Nodes -/

theorem each_evaluating {start : Flow} {ids : List ExprId} (hids : ∀ id ∈ ids, id < s.arena.size)
    (hf : s.Evaluating start f) : s.Evaluating start (Track.each s.eval ids f).2 :=
  Track.each_inv (s.Evaluating start) (fun id hid _ hg => hg.eval (Nat.lt_succ_of_lt (hids id hid))) hf

theorem Visits.evaluating {ids : List ExprId} {id : ExprId} {g start : Flow} (hv : s.Visits ids f id g)
    (ha : s.arena.Sound) (hids : ∀ id ∈ ids, id < s.arena.size) (hf : s.Evaluating start f) :
    id < s.arena.size ∧ s.Evaluating start g := by
  induction hv with
  | operand hsplit =>
    rw [hsplit, List.forall_mem_append, List.forall_mem_cons] at hids
    exact ⟨hids.2.1, each_evaluating hids.1 hf⟩
  | child _ he hchildren ih =>
    obtain ⟨hid, hg⟩ := ih
    have hlt := fun c hc => Nat.lt_trans (ha.child_lt he c hc) hid
    rw [hchildren, List.forall_mem_append, List.forall_mem_cons] at hlt
    exact ⟨hlt.2.1, each_evaluating hlt.1 hg⟩

theorem seedParams_scrubbed (hf : f.Scrubbed) : (s.seedParams f).2.Scrubbed := by
  unfold seedParams
  split
  · refine Track.each_inv Flow.Scrubbed (fun p _ g hg => ?_) hf
    have hseeded : (Taint.labelled (.of .untrusted) g.nodes.size).Scrubbed := .of_isTainted rfl
    exact hg.insertFact p.name hseeded
  · exact hf

end Site

/-! ## Along a scope -/

namespace SourceUnit

variable {u : SourceUnit} {x : ExtractedUnit} {registry : Registry} {options : AnalysisOptions}
variable {done : Array Facts} {flow : Flow} {scope : Scope} {k : Nat}

theorem Reaches.scrubbed (hx : x.Recorded) (hr : u.Reaches x registry options done (.within scope k) flow)
    (hno : ∀ i g st, i < k → u.Reaches x registry options done (.within scope i) g →
      scope.statements[i]? = some st →
      ¬((u.siteIn x registry options done scope).atStatement st g).LeavesMark st
        ((u.siteIn x registry options done scope).matched st g)) : flow.Scrubbed := by
  induction k generalizing flow with
  | zero =>
    cases hr with
    | enter _ _ =>
      refine Site.seedParams_scrubbed fun key t ht => ?_
      rw [Std.HashMap.getElem?_empty] at ht
      cases ht
  | succ k ih =>
    cases hr with
    | @step _ g _ _ _ st hr hst hok =>
      have hg := ih hr fun i g st hi => hno i g st (Nat.lt_succ_of_lt hi)
      rw [Site.statement_eq hx.sound (hr.operand_lt hx hst)] at hok
      rw [← Except.ok.inj hok]
      have hsite : ((u.siteIn x registry options done scope).atStatement st g).arena.Sound := hx.sound
      have hmatched : ((u.siteIn x registry options done scope).matched st g).Scrubbed := hg.of_facts rfl
      exact Site.effect_scrubbed hsite hmatched (hno k g st (Nat.lt_succ_self k) hr hst) _

theorem Reaches.finds_anchored (hx : x.Recorded) (hr : u.Reaches x registry options done (.within scope k) flow)
    {st : Statement} (hst : scope.statements[k]? = some st) {v : Taint}
    (hv : (u.siteIn x registry options done scope).Finds st flow v) : ∃ size, v.Anchored size := by
  obtain ⟨id, g, hv, rfl⟩ := hv
  obtain ⟨hflow, hdone⟩ := hr.ordered hx
  have hs : ((u.siteIn x registry options done scope).atStatement st flow).Inherits :=
    atStatement_inherits hdone scope st
  have hsound : ((u.siteIn x registry options done scope).atStatement st flow).arena.Sound := hx.sound
  obtain ⟨hid, hg⟩ := hv.evaluating hsound (hr.operand_lt hx hst) (.start _)
  have hordered := (hg.ordered hs hsound hflow).1
  exact ⟨_, ((Site.orderedEvaluation hs).evalTo hsound _ (Nat.lt_succ_of_lt hid) trivial hordered).2.2⟩

/-- A value or fact without labels has no node. It is clean as long as no full sanitizer takes the last
label from a value that a partial one has marked: then joining it changes no tainted value. The first
statement of a scope at which this happens leaves a value or a fact without labels that is not clean,
since taking all labels from a value gives a clean one just if it is not marked. -/
theorem unlabelled_clean_iff {bound : Nat} {c c' : Countdown} (hx : u.extract bound c = (.ok x, c'))
    (hr : u.Reaches x registry options done (.within scope k) flow) :
    let s := u.siteIn x registry options done scope
    (∀ t : Taint, t.remove t.labels = .clean ↔ t.adjacent = false) ∧
    (∀ (key : String) (t : Taint), flow.facts[key]? = some t → t.isTainted = false → t.node = none) ∧
    (∀ st, scope.statements[k]? = some st → ∀ v, s.Finds st flow v → v.isTainted = false → v.node = none) ∧
    ((∀ i g st, i < k → u.Reaches x registry options done (.within scope i) g →
        scope.statements[i]? = some st → ¬(s.atStatement st g).LeavesMark st (s.matched st g)) →
      (∀ (key : String) (t : Taint), flow.facts[key]? = some t → t.isTainted = false → t = .clean) ∧
      ∀ st, scope.statements[k]? = some st → st.evaluates = true →
        ∃ flow', s.statement st flow = .ok flow' ∧
          ((∀ v, s.Finds st flow v → v.isTainted = false → v = .clean) ∧
            (∀ (key : String) (t : Taint), flow'.facts[key]? = some t → t.isTainted = false → t = .clean) ↔
            ¬(s.atStatement st flow).LeavesMark st (s.matched st flow)) ∧
          (¬(s.atStatement st flow).LeavesMark st (s.matched st flow) →
            ∀ v, s.Finds st flow v → v.isTainted = false →
              ∀ t : Taint, t.isTainted = true → t.join v = t ∧ v.join t = t)) := by
  intro s
  have hrecorded := extract_recorded hx
  have hflow := (hr.ordered hrecorded).1
  refine ⟨Taint.remove_labels_eq_clean_iff, fun key t ht => (hflow.facts key t ht).node_eq_none,
    fun st hst v hv => ?_, fun hno => ?_⟩
  · obtain ⟨size, hanchored⟩ := hr.finds_anchored hrecorded hst hv
    exact hanchored.node_eq_none
  · have hscrubbed := hr.scrubbed hrecorded hno
    refine ⟨hscrubbed, fun st hst hevaluates => ?_⟩
    have hsound : (s.atStatement st flow).arena.Sound := hrecorded.sound
    have hmatched : (s.matched st flow).Scrubbed := hscrubbed.of_facts rfl
    have hiff := Site.effect_scrubbed_iff hsound hmatched hevaluates (s.secrets st flow)
    rw [← Site.finds_scrubbed_iff] at hiff
    refine ⟨_, Site.statement_eq hrecorded.sound (hr.operand_lt hrecorded hst) flow, hiff, ?_⟩
    intro hno v hv hclean t ht
    rw [(hiff.mpr hno).1 v hv hclean]
    exact ⟨Taint.join_clean ht, t.clean_join⟩

end SourceUnit

/-! ## A marked value that is emptied -/

namespace EmptiedPart

/-- A value that a partial and a full sanitizer have cleaned is joined with untrusted data. -/
def unit : SourceUnit :=
  { id := "a.py", content := (Text.Utf8.encode "run(full(part(ask())) + ask())").toArray, language := .python }

def rules : Registry := .ofOrdered
  [{ id := "ask", name := "ask", matcher := .source { callees := [⟨"ask", false⟩] } },
   { id := "full", name := "full", matcher := .sanitizer { callees := [⟨"full", false⟩] } },
   { id := "part", name := "part", matcher := .sanitizer { callees := [⟨"part", false⟩], isPartial := true } },
   { id := "run", name := "run", category := some .codeInjection
     matcher := .sink { callees := [⟨"run", false⟩] } }]

def statement : Statement := { kind := .call, operands := [5], span := ⟨0, 30⟩, controlTag := 0 }

def scope : Scope := { kind := .module, name := "", headerSpan := ⟨0, 0⟩, statements := #[statement] }

def extracted : ExtractedUnit :=
  { arena := ⟨#[⟨.call "ask" none [] false, ⟨14, 19⟩⟩, ⟨.call "part" none [0] false, ⟨9, 20⟩⟩,
      ⟨.call "full" none [1] false, ⟨4, 21⟩⟩, ⟨.call "ask" none [] false, ⟨24, 29⟩⟩,
      ⟨.compound [2, 3], ⟨4, 29⟩⟩, ⟨.call "run" none [4] false, ⟨0, 30⟩⟩], #[1, 2, 3, 1, 4, 5]⟩
    scopes := #[scope], stats := { statements := 1, scopes := 1 } }

theorem extract_unit : unit.extract 1 .never = (.ok extracted, .never) := by
  decide +kernel

def site : Site := unit.siteIn extracted rules {} #[] scope

theorem reaches_module : unit.Reaches extracted rules {} #[] (.within scope 0) {} := .enter .start rfl

theorem matched_statement : site.matched statement {} = {} := by
  have hfound : site.found statement {} = [] := by cbv
  rw [Site.matched, hfound]
  rfl

theorem eval_full : ((site.atStatement statement {}).eval 2 {}).1 = { adjacent := true } := by
  decide +kernel

theorem finds_full : site.Finds statement {} { adjacent := true } := by
  have hrun : (site.atStatement statement {}).Visits statement.operands {} 5 {} :=
    .operand (show statement.operands = [] ++ 5 :: [] from rfl)
  have hsum : (site.atStatement statement {}).Visits statement.operands {} 4 {} :=
    hrun.child rfl (show [4] = [] ++ 4 :: [] from rfl)
  have hfull : (site.atStatement statement {}).Visits statement.operands {} 2 {} :=
    hsum.child rfl (show [2, 3] = [] ++ 2 :: [3] from rfl)
  exact ⟨2, {}, by rwa [matched_statement], eval_full⟩

theorem unlabelled_clean_iff_emptied :
    unit.extract 1 .never = (.ok extracted, .never) ∧
      unit.Reaches extracted rules {} #[] (.within scope 0) {} ∧
      scope.statements[0]? = some statement ∧ statement.evaluates = true ∧
      (∃ v, site.Finds statement {} v ∧ v.isTainted = false ∧ v.node = none ∧ v ≠ .clean) ∧
      (site.atStatement statement {}).LeavesMark statement (site.matched statement {}) := by
  obtain ⟨_, _, hnode, hclean⟩ := SourceUnit.unlabelled_clean_iff extract_unit reaches_module
  obtain ⟨_, hstatement⟩ := hclean fun i _ _ hi => absurd hi (Nat.not_lt_zero i)
  obtain ⟨_, _, hiff, _⟩ := hstatement statement rfl rfl
  have hne : ({ adjacent := true } : Taint) ≠ .clean := by decide
  refine ⟨extract_unit, reaches_module, rfl, rfl, ?_, ?_⟩
  · exact ⟨_, finds_full, rfl, hnode statement rfl _ finds_full rfl, hne⟩
  · by_contra hno
    exact hne ((hiff.mpr hno).1 _ finds_full rfl)

/-- The value without labels marks the unsanitized one that it is joined with. -/
theorem track_marks_unsanitized :
    ∃ x c v, unit.extract 1 .never = (.ok x, .never) ∧ unit.track x rules {} .never = (.ok [c], .never) ∧
      (unit.siteIn x rules {} #[] scope).Finds statement {} v ∧ v.isTainted = false ∧ v ≠ .clean ∧
      c.path = [⟨24, 29⟩] ∧ c.adjacent = true := by
  let after := ((site.atStatement statement {}).effect statement [] {}).2
  have hok : site.statement statement {} = .ok after := by
    refine Site.statement_eq_ok_iff.mpr ⟨[], ?_, rfl⟩
    cbv
  have htrack := ((reaches_module.step rfl hok).leave rfl).track_eq (Nat.le_refl 1)
  have hmarks : after.candidates.toList.map (fun c => (c.path, c.adjacent)) = [([⟨24, 29⟩], true)] := by
    decide +kernel
  obtain ⟨c, hc, heq⟩ := List.map_eq_singleton_iff.mp hmarks
  refine ⟨extracted, c, { adjacent := true }, extract_unit, by rw [htrack, hc], finds_full, rfl, by decide, ?_⟩
  exact ⟨congrArg Prod.fst heq, congrArg Prod.snd heq⟩

end EmptiedPart
end TaintScan
