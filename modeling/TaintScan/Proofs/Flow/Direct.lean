import TaintScan.Proofs.Extract.Within
import TaintScan.Proofs.Flow.Report
import TaintScan.Proofs.Scan

/-! # Sinks that a label gets to are reported

A sink that checks an argument of a call below an expression is reported if a label that it requires
gets to the argument, with a path that is not empty; and what is reported is kept to the end of the
pass.
-/
namespace TaintScan

theorem Track.each_establishes {α β : Type} (inv P : Flow → Prop) {p : α → Track β} {items : List α} {a : α}
    (ha : a ∈ items) (hinv : ∀ b ∈ items, ∀ f, inv f → inv (p b f).2) (hP : ∀ f, inv f → P (p a f).2)
    (hkeep : ∀ b ∈ items, ∀ f, P f → P (p b f).2) {f : Flow} (hf : inv f) : P (each p items f).2 := by
  induction items generalizing f with
  | nil => cases ha
  | cons b rest ih =>
    obtain ⟨hb, hrest⟩ := List.forall_mem_cons.mp hinv
    obtain ⟨hkb, hkrest⟩ := List.forall_mem_cons.mp hkeep
    rcases List.mem_cons.mp ha with rfl | ha
    · exact each_inv P hkrest (hP f hf)
    · exact ih ha hrest hkrest (hb f hf)

namespace Site

def Evaluation.both {s : Site} (E F : s.Evaluation) : s.Evaluation where
  visits id := E.visits id ∧ F.visits id
  child hv he hchild := ⟨E.child hv.1 he hchild, F.child hv.2 he hchild⟩
  inv f := E.inv f ∧ F.inv f
  le f g := E.le f g ∧ F.le f g
  good f id t := E.good f id t ∧ F.good f id t
  refl f := ⟨E.refl f, F.refl f⟩
  trans h h' := ⟨E.trans h.1 h'.1, F.trans h.2 h'.2⟩
  good_le hle h := ⟨E.good_le hle.1 h.1, F.good_le hle.2 h.2⟩
  absent hf he := ⟨E.absent hf.1 he, F.absent hf.2 he⟩
  literal hf he := ⟨E.literal hf.1 he, F.literal hf.2 he⟩
  read hf he := by
    obtain ⟨hinv, hle, hgood⟩ := E.read hf.1 he
    obtain ⟨hinv', hle', hgood'⟩ := F.read hf.2 he
    exact ⟨⟨hinv, hinv'⟩, ⟨hle, hle'⟩, hgood, hgood'⟩
  parts hf he hkind hall :=
    ⟨E.parts hf.1 he hkind (hall.imp fun _ _ h => h.1), F.parts hf.2 he hkind (hall.imp fun _ _ h => h.2)⟩
  sink hv hf he hall hr hhit := by
    obtain ⟨hinv, hle⟩ := E.sink hv.1 hf.1 he (hall.imp fun _ _ h => h.1) hr hhit
    obtain ⟨hinv', hle'⟩ := F.sink hv.2 hf.2 he (hall.imp fun _ _ h => h.2) hr hhit
    exact ⟨⟨hinv, hinv'⟩, hle, hle'⟩
  store hv hf he hall htaint hname := by
    obtain ⟨hinv, hle⟩ := E.store hv.1 hf.1 he (hall.imp fun _ _ h => h.1) htaint hname
    obtain ⟨hinv', hle'⟩ := F.store hv.2 hf.2 he (hall.imp fun _ _ h => h.2) htaint hname
    exact ⟨⟨hinv, hinv'⟩, hle, hle'⟩
  result hf he hr ha := by
    obtain ⟨hinv, hle, hgood⟩ :=
      E.result hf.1 he (hr.imp fun _ _ h => h.1) (ha.imp fun _ _ h => h.1)
    obtain ⟨hinv', hle', hgood'⟩ :=
      F.result hf.2 he (hr.imp fun _ _ h => h.2) (ha.imp fun _ _ h => h.2)
    exact ⟨⟨hinv, hinv'⟩, ⟨hle, hle'⟩, hgood, hgood'⟩

/-! ## Calls below an expression -/

section

variable {s : Site} {P : Flow → Prop} (K : s.Keeps P) (E : s.Evaluation) (harena : s.arena.Sound) {fuel : Nat}
include K

theorem Keeps.evalTo_call {id : ExprId} {callee : String} {receiver : Option ExprId} {args : List ExprId}
    {constructs : Bool} {span : Span} {f : Flow}
    (he : s.arena.exprs[id]? = some ⟨.call callee receiver args constructs, span⟩)
    (hargs : let g := (Track.each (s.evalTo fuel) receiver.toList f).2
      let taints := (Track.each (s.evalTo fuel) args g).1
      P (s.reportSinks span callee constructs (args.zip taints) (Track.each (s.evalTo fuel) args g).2).2) :
    P (s.evalTo (fuel + 1) id f).2 := by
  rw [Site.evalTo, he]
  simp only [Track.bind_apply]
  split
  · exact K.callResult _ _ _ _ (Track.each_inv P (fun _ _ _ hg => K.storeInto _ _ hg) hargs)
  · exact K.callResult _ _ _ _ hargs

include harena

theorem Keeps.evalEach {ids : List ExprId} (hids : ∀ id ∈ ids, id < fuel) {f : Flow} (hf : P f) :
    P (Track.each (s.evalTo fuel) ids f).2 :=
  (K.evaluation.evalEach harena (fun id hid => ⟨hids id hid, trivial⟩) hf).1

include E

theorem Evaluation.evalTo_of_child {id child : ExprId} {e : Expr} (he : s.arena.exprs[id]? = some e)
    (hchild : child ∈ e.children) (hid : id < fuel + 1) (hv : E.visits id)
    (hP : ∀ f, E.inv f → P (s.evalTo fuel child f).2) {f : Flow} (hf : E.inv f) :
    P (s.evalTo (fuel + 1) id f).2 := by
  obtain ⟨kind, span⟩ := e
  have hlt : ∀ c ∈ Expr.children ⟨kind, span⟩, c < fuel ∧ E.visits c := by
    intro c hc
    exact ⟨Nat.lt_of_lt_of_le (harena.child_lt he c hc) (Nat.le_of_lt_succ hid), E.child hv he hc⟩
  have hestablish {ids : List ExprId} (hmem : child ∈ ids) (hids : ∀ c ∈ ids, c < fuel ∧ E.visits c)
      {g : Flow} (hg : E.inv g) : P (Track.each (s.evalTo fuel) ids g).2 := by
    refine Track.each_establishes E.inv P hmem (fun c hc f hf => ?_) hP (fun c hc f hf => ?_) hg
    · exact (E.evalTo harena fuel (hids c hc).1 (hids c hc).2 hf).1
    · exact (K.evaluation.evalTo harena fuel (hids c hc).1 trivial hf).1
  cases kind with
  | literal kind value => cases hchild
  | «variable» path => cases hchild
  | concat parts =>
    rw [Site.evalTo, he]
    exact hestablish hchild hlt hf
  | compound parts =>
    rw [Site.evalTo, he]
    exact hestablish hchild hlt hf
  | call callee receiver args constructs =>
    have hlt : ∀ c ∈ receiver.toList ++ args, c < fuel ∧ E.visits c := hlt
    obtain ⟨hr, ha⟩ := List.forall_mem_append.mp hlt
    refine K.evalTo_call he (K.reportSinks _ _ _ _ ?_)
    have hchild : child ∈ receiver.toList ++ args := hchild
    rcases List.mem_append.mp hchild with hchild | hchild
    · exact K.evalEach harena (fun c hc => (ha c hc).1) (hestablish hchild hr hf)
    · exact hestablish hchild ha (E.evalEach harena hr hf).1

theorem Evaluation.evalTo_of_below {ok : Expr → Bool} {low high : ExprId} (hbelow : s.arena.Below ok low high)
    (hP : ∀ fuel, low < fuel → E.visits low → ∀ f, E.inv f → P (s.evalTo fuel low f).2) (hfuel : high < fuel)
    (hv : E.visits high) {f : Flow} (hf : E.inv f) : P (s.evalTo fuel high f).2 := by
  induction hbelow generalizing fuel f with
  | refl => exact hP fuel hfuel hv f hf
  | step he _ hchild _ ih =>
    obtain ⟨n, rfl⟩ := Nat.exists_eq_succ_of_ne_zero (Nat.ne_zero_of_lt hfuel)
    have hlt := Nat.lt_of_lt_of_le (harena.child_lt he _ hchild) (Nat.le_of_lt_succ hfuel)
    exact E.evalTo_of_child K harena he hchild hfuel hv (fun g hg => ih hlt (E.child hv he hchild) hg) hf

end

end Site

/-! ## The report of a sink -/

/-- A sink has been reported at a span, with a path. -/
def Flow.Tells (f : Flow) (r : Rule) (span : Span) : Prop :=
  ∃ c ∈ f.candidates, c.rule = r ∧ c.span = span ∧ c.path ≠ []

namespace Site

theorem keeps_tells (s : Site) (r : Rule) (span : Span) : s.Keeps (·.Tells r span) where
  pushNode _ hf := hf
  withFacts _ hf := hf
  report _ _ _ _ _ hf := by
    obtain ⟨c, hc, h⟩ := hf
    exact ⟨c, Array.mem_push_of_mem _ hc, h⟩

variable {t : Taint}

theorem sinkHit?_of_getElem? {spec : SinkSpec} {args : List (ExprId × Taint)} {n : Nat} {arg : ExprId}
    (hn : args[n]? = some (arg, t)) (hchecked : spec.checksArg n = true)
    (hlabels : t.labels.intersects spec.requires = true) : ∃ hit, sinkHit? spec args = some hit := by
  have hmem : ((arg, t), n) ∈ args.zipIdx := List.mem_zipIdx_iff_getElem?.mpr hn
  have hfind : (args.zipIdx.find? fun p => spec.checksArg p.2 && p.1.2.labels.intersects spec.requires).isSome := by
    rw [List.find?_isSome]
    exact ⟨_, hmem, by rw [hchecked, hlabels]; rfl⟩
  obtain ⟨found, hfound⟩ := Option.isSome_iff_exists.mp hfind
  exact ⟨found.1, by rw [sinkHit?, hfound]; rfl⟩

theorem Traced.pathTo_ne_nil {s : Site} {nodes : Array Node} {B : Bool → Label → Span → Prop} (h : s.Traced nodes B t)
    (ht : t.isTainted = true) : pathTo nodes t.node ≠ [] := by
  obtain ⟨n, _, _, hn, ho, _⟩ := h.node ht
  have hhead := ho.head?_pathTo
  rw [hn]
  intro hnil
  rw [hnil] at hhead
  cases hhead

theorem reportSinks_tells {s : Site} {callee : String} {constructs : Bool} {r : Rule} {spec : SinkSpec}
    (hsink : (r, spec) ∈ s.registry.sinksOfCall callee constructs s.language) {args : List (ExprId × Taint)}
    {arg : ExprId} (hhit : sinkHit? spec args = some (arg, t)) {f : Flow} (hpath : pathTo f.nodes t.node ≠ [])
    (span : Span) : (s.reportSinks span callee constructs args f).2.Tells r span := by
  -- Reports leave the definitions as they are, so the path is the same whenever the sink is met.
  refine Track.each_establishes (·.nodes = f.nodes) (·.Tells r span) hsink (fun p _ g hg => ?_)
    (fun g hg => ?_) (fun p hp g hg => ?_) rfl
  · cases sinkHit? p.2 args with
    | none => exact hg
    | some hit => exact hg
  · dsimp only
    rw [hhit]
    refine ⟨s.sinkCandidate g.nodes r span t callee (s.describe arg), Array.mem_push_self, rfl, rfl, ?_⟩
    change (pathTo g.nodes t.node).map (·.span) ≠ []
    rw [hg]
    exact mt List.map_eq_nil_iff.mp hpath
  · cases sinkHit? p.2 args with
    | none => exact hg
    | some hit => exact (s.keeps_tells r span).report _ _ _ _ (List.mem_filter.mp hp).1 hg

end Site

namespace SourceUnit

variable {u : SourceUnit} {x : ExtractedUnit} {registry : Registry} {options : AnalysisOptions}

section

variable {s : Site} {i k : Nat} {st : Statement} {nodes : Array Node} {l : Label} {facts : Facts}

theorem Standing.evalTo_tells (hs : u.Standing x registry options s i k st nodes) (harena : s.arena.Sound)
    {call : ExprId} {callee : String} {receiver : Option ExprId} {args : List ExprId} {constructs : Bool}
    {span : Span} (he : s.arena.exprs[call]? = some ⟨.call callee receiver args constructs, span⟩)
    {r : Rule} {spec : SinkSpec} (hsink : (r, spec) ∈ s.registry.sinksOfCall callee constructs s.language)
    (hrequires : spec.requires.contains l = true) {n : Nat} {arg : ExprId} (harg : args[n]? = some arg)
    (hchecked : spec.checksArg n = true) {var : ExprId} {path : String}
    (hvar : s.arena.kind? var = some (.variable path)) (hcarries : s.carries facts l path = true)
    (hfeeds : s.Feeds l var arg) {fuel : Nat} (hfuel : call < fuel)
    (hv : ((s.propagation l facts).both (evaluation hs)).visits call) {f : Flow}
    (hf : ((s.propagation l facts).both (evaluation hs)).inv f) : (s.evalTo fuel call f).2.Tells r span := by
  let E := (s.propagation l facts).both (evaluation hs)
  obtain ⟨fuel, rfl⟩ := Nat.exists_eq_succ_of_ne_zero (Nat.ne_zero_of_lt hfuel)
  have hlt : ∀ c ∈ receiver.toList ++ args, c < fuel ∧ E.visits c := by
    intro c hc
    exact ⟨Nat.lt_of_lt_of_le (harena.child_lt he c hc) (Nat.le_of_lt_succ hfuel), E.child hv he hc⟩
  obtain ⟨hr, ha⟩ := List.forall_mem_append.mp hlt
  obtain ⟨hinv, _, _⟩ := E.evalEach harena hr hf
  obtain ⟨_, _, hgood⟩ := E.evalEach harena ha hinv
  refine (s.keeps_tells r span).evalTo_call he ?_
  dsimp only
  generalize Track.each (s.evalTo fuel) args (Track.each (s.evalTo fuel) receiver.toList f).2 = result at hgood
  obtain ⟨taints, g⟩ := result
  -- The label gets to the argument, so some argument is hit; every hit has a path.
  obtain ⟨t, ht⟩ : ∃ t, taints[n]? = some t := by
    refine ⟨_, List.getElem?_eq_getElem ?_⟩
    rw [← hgood.length_eq]
    exact (List.getElem?_eq_some_iff.mp harg).1
  have hzip : (args.zip taints)[n]? = some (arg, t) := List.getElem?_zip_eq_some.mpr ⟨harg, ht⟩
  have hlabel : t.labels.contains l = true :=
    (List.forall₂_zip hgood (List.mem_of_getElem? hzip)).1 var path hvar hcarries hfeeds
  have hlabels : t.labels.intersects spec.requires = true := by
    cases l with
    | untrusted => exact Bool.or_eq_true_iff.mpr (Or.inl (Bool.and_eq_true_iff.mpr ⟨hlabel, hrequires⟩))
    | secret => exact Bool.or_eq_true_iff.mpr (Or.inr (Bool.and_eq_true_iff.mpr ⟨hlabel, hrequires⟩))
  obtain ⟨⟨arg', t'⟩, hhit⟩ := Site.sinkHit?_of_getElem? hzip hchecked hlabels
  obtain ⟨m, hm, _, hhits⟩ := Site.sinkHit?_eq_some hhit
  obtain ⟨l', hl', _⟩ := LabelSet.exists_contains_of_intersects hhits
  have htraced := (List.forall₂_zip hgood (List.mem_of_getElem? hm)).2
  exact Site.reportSinks_tells hsink hhit (htraced.pathTo_ne_nil (Taint.isTainted_of_contains hl')) span

end

end SourceUnit

/-! ## What a parameter is mentioned in -/

theorem factKey_of_undotted {name : String} (h : '.' ∉ name.toList) : factKey name = name := by
  have hnone : ∀ head ∈ ["this.", "self.", "$this."], Text.dropHead? head name = none := by
    intro head hhead
    have hdot : '.' ∈ head.toList := by
      revert head
      decide
    unfold Text.dropHead?
    rw [if_neg]
    intro hprefix
    exact h ((List.isPrefixOf_iff_prefix.mp hprefix).subset hdot)
  rw [factKey, List.findSome?_eq_none_iff.mpr hnone, Option.getD_none]

theorem pathHeads_of_undotted {name : String} (h : '.' ∉ name.toList) : pathHeads name = [name] := by
  have hsegments : Text.splitOn '.' name = [name] := by
    refine Text.splitOn_of_no_dot fun c hc => ?_
    rw [beq_eq_false_iff_ne]
    rintro rfl
    exact h hc
  rw [pathHeads, hsegments]
  rfl

namespace Site

/-- A path has the fact of a name: it is the name, or it lies below the name and nothing closer is
known. -/
def ReadsFrom (s : Site) (facts : Facts) (name path : String) : Prop :=
  path = name ∨ ∃ closer above, pathHeads (factKey path) = closer ++ name :: above ∧
    ∀ key ∈ closer, s.known? facts key = none

theorem ReadsFrom.lookup? {s : Site} {facts : Facts} {name path : String} (h : s.ReadsFrom facts name path)
    (hname : '.' ∉ name.toList) {t : Taint} (ht : facts[name]? = some t) : s.lookup? facts path = some t := by
  have hknown : s.known? facts name = some t := by
    rw [known?, ht]
    rfl
  rw [lookup?_eq]
  rcases h with rfl | ⟨closer, above, hheads, hcloser⟩
  · rw [factKey_of_undotted hname, pathHeads_of_undotted hname, List.findSome?_cons, hknown]
  · rw [hheads, List.findSome?_append, List.findSome?_eq_none_iff.mpr hcloser, Option.none_or,
      List.findSome?_cons, hknown]

end Site

/-- A tree of joins over literals and variables. -/
inductive ExprArena.Plain (a : ExprArena) : ExprId → Prop where
  | literal {id : ExprId} {kind : LiteralKind} {value : String} {span : Span} :
    a.exprs[id]? = some ⟨.literal kind value, span⟩ → Plain a id
  | name {id : ExprId} {path : String} {span : Span} :
    a.exprs[id]? = some ⟨.variable path, span⟩ → Plain a id
  | join {id : ExprId} {e : Expr} {parts : List ExprId} : a.exprs[id]? = some e →
    e.kind = .concat parts ∨ e.kind = .compound parts → (∀ part ∈ parts, Plain a part) → Plain a id

theorem ExprArena.Plain.feeds {s : Site} {ok : Expr → Bool} {low high : ExprId} (h : s.arena.Plain high)
    (hbelow : s.arena.Below ok low high) (l : Label) : s.Feeds l low high := by
  induction hbelow with
  | refl => exact .refl _
  | @step child parent e he _ hchild _ ih =>
    cases h with
    | literal he' =>
      cases he.symm.trans he'
      cases hchild
    | name he' =>
      cases he.symm.trans he'
      cases hchild
    | @join _ _ parts he' hkind hparts =>
      cases he.symm.trans he'
      have hpasses : s.passes l e = true ∧ child ∈ parts := by
        unfold Site.passes
        rw [Expr.children] at hchild
        rcases hkind with hkind | hkind
        · rw [hkind] at hchild ⊢
          exact ⟨rfl, hchild⟩
        · rw [hkind] at hchild ⊢
          exact ⟨rfl, hchild⟩
      exact .step he hpasses.1 hchild (ih (hparts child hpasses.2))

/-! ## Along a pass -/

namespace SourceUnit

variable {u : SourceUnit} {x : ExtractedUnit} {registry : Registry} {options : AnalysisOptions}
variable {done : Array Facts} {scope : Scope} {k : Nat} {f f' : Flow} {st : Statement} {span : Span} {r : Rule}

/-- A statement reports a sink that checks an argument of a call below an operand, if a label that the
sink requires gets to the argument. -/
theorem Settled.statement_tells (h : u.Settled x registry options done (.within scope k) f) (hx : x.Recorded)
    (hscope : x.scopes[done.size]? = some scope) (hst : scope.statements[k]? = some st)
    (hsilent : st.kind.isSilent = false) {operand call : ExprId} (hoperand : operand ∈ st.operands)
    (hbelow : x.arena.Below (fun _ => true) call operand) {callee : String} {receiver : Option ExprId}
    {args : List ExprId} {constructs : Bool}
    (he : x.arena.exprs[call]? = some ⟨.call callee receiver args constructs, span⟩) {spec : SinkSpec}
    (hsink : (r, spec) ∈ registry.sinksOfCall callee constructs u.language) {l : Label}
    (hrequires : spec.requires.contains l = true) {n : Nat} {arg : ExprId} (harg : args[n]? = some arg)
    (hchecked : spec.checksArg n = true) {var : ExprId} {path : String}
    (hvar : x.arena.kind? var = some (.variable path))
    (hcarries : (u.siteIn x registry options done scope).carries f.facts l path = true)
    (hfeeds : (u.siteIn x registry options done scope).Feeds l var arg)
    (hok : (u.siteIn x registry options done scope).statement st f = .ok f') : f'.Tells r span := by
  obtain ⟨found, hfound, rfl⟩ := Site.statement_eq_ok_iff.mp hok
  have hstanding := h.standing hscope hst
  have hoperands := hx.operand_lt scope (Array.mem_of_getElem? hscope) st (Array.mem_of_getElem? hst)
  let s := (u.siteIn x registry options done scope).atStatement st f
  let E := (s.propagation l f.facts).both (evaluation hstanding)
  let K := s.keeps_tells r span
  have hvisits : ∀ id ∈ st.operands, E.visits id :=
    fun id hid => ⟨trivial, st, id, hstanding.at, hid, .refl id⟩
  have hlt : ∀ id ∈ st.operands, id < s.arena.size + 1 := fun id hid => Nat.lt_succ_of_lt (hoperands id hid)
  have hstart : E.inv { f with candidates := f.candidates ++ (found.map Candidate.ofShape).toArray } :=
    ⟨fun _ hpath => hpath, h.accounted hstanding.firstNode found⟩
  refine K.effect_of_operands _ ?_ ?_
  · refine Track.each_establishes E.inv (·.Tells r span) hoperand (fun id hid g hg => ?_) (fun g hg => ?_)
      (fun id hid g hg => ?_) hstart
    · exact (E.evalTo hx.sound _ (hlt id hid) (hvisits id hid) hg).1
    · refine E.evalTo_of_below K hx.sound hbelow (fun fuel hfuel hv g hg => ?_) (hlt operand hoperand)
        (hvisits operand hoperand) hg
      exact hstanding.evalTo_tells hx.sound he hsink hrequires harg hchecked hvar hcarries hfeeds hfuel hv hg
    · exact (K.evaluation.evalTo hx.sound _ (hlt id hid) trivial hg).1
  · rintro (hkind | hkind)
    · rw [hkind] at hsilent
      cases hsilent
    · rw [hkind] at hsilent
      cases hsilent

theorem statement_keeps_tells {s : Site} (harena : s.arena.Sound) (hst : ∀ id ∈ st.operands, id < s.arena.size)
    (hok : s.statement st f = .ok f') (hf : f.Tells r span) : f'.Tells r span := by
  obtain ⟨found, _, rfl⟩ := Site.statement_eq_ok_iff.mp hok
  refine ((s.atStatement st f).keeps_tells r span).effect harena hst _ ?_
  obtain ⟨c, hc, h⟩ := hf
  exact ⟨c, Array.mem_append_left _ hc, h⟩

theorem walk_keeps_tells {s : Site} (harena : s.arena.Sound) {statements : List Statement}
    (hsts : ∀ st ∈ statements, ∀ id ∈ st.operands, id < s.arena.size) {p p' : Progress}
    (h : s.walk statements f p = (.ok f', p')) (hf : f.Tells r span) : f'.Tells r span := by
  induction statements generalizing f p with
  | nil =>
    cases h
    exact hf
  | cons st rest ih =>
    obtain ⟨hst, hrest⟩ := List.forall_mem_cons.mp hsts
    rw [Site.walk] at h
    split at h
    · cases h
    · split at h
      · cases h
      · next hok => exact ih hrest h (statement_keeps_tells harena hst hok hf)

theorem trackFrom_keeps_tells (hx : x.Recorded) {scopes : List Scope} (hscopes : ∀ scope ∈ scopes, scope ∈ x.scopes)
    {p p' : Progress} (h : u.trackFrom x registry options scopes done f p = (.ok f', p')) (hf : f.Tells r span) :
    f'.Tells r span := by
  induction scopes generalizing done f p with
  | nil =>
    cases h
    exact hf
  | cons scope rest ih =>
    obtain ⟨hscope, hrest⟩ := List.forall_mem_cons.mp hscopes
    have hst : ∀ st ∈ scope.statements.toList, ∀ id ∈ st.operands, id < x.arena.size :=
      fun st hst => hx.operand_lt scope hscope st (Array.mem_toList_iff.mp hst)
    have hseeded : ((u.siteIn x registry options done scope).seedParams { f with facts := {} }).2.Tells r span := by
      unfold Flow.Tells
      rw [Site.seedParams_candidates]
      exact hf
    rw [trackFrom] at h
    split at h
    · cases h
    · next hwalk => exact ih hrest h (walk_keeps_tells hx.sound hst hwalk hseeded)

theorem Reaches.mem_track (h : u.Reaches x registry options done (.within scope k) f) (hx : x.Recorded)
    (hf : f.Tells r span) {candidates : List Candidate}
    (htrack : u.track x registry options .never = (.ok candidates, .never)) :
    ∃ c ∈ candidates, c.rule = r ∧ c.span = span ∧ c.path ≠ [] := by
  obtain ⟨n, hn⟩ := h.rest
  have hmem : ∀ scope ∈ x.scopes.toList.drop (done.size + 1), scope ∈ x.scopes :=
    fun scope hscope => Array.mem_toList_iff.mp (List.mem_of_mem_drop hscope)
  have hst : ∀ st ∈ scope.statements.toList.drop k, ∀ id ∈ st.operands, id < x.arena.size :=
    fun st hst => hx.operand_lt scope (Array.mem_of_getElem? h.scope_eq) st
      (Array.mem_toList_iff.mp (List.mem_of_mem_drop hst))
  unfold track at htrack
  rw [hn] at htrack
  split at htrack
  · cases htrack
  · next hrest =>
    obtain ⟨hcandidates, _⟩ := Prod.mk.inj htrack
    cases hcandidates
    rw [SourceUnit.rest] at hrest
    split at hrest
    · cases hrest
    · next hwalk =>
      obtain ⟨c, hc, hcandidate⟩ :=
        trackFrom_keeps_tells hx hmem hrest (walk_keeps_tells hx.sound hst hwalk hf)
      exact ⟨c, Array.mem_toList_iff.mpr hc, hcandidate⟩

end SourceUnit
end TaintScan
