import TaintScan.Proofs.Flow.Origin

/-! # Labels are brought from origins

`SourceUnit.Carries` says how a label gets from where it is introduced to a place of a unit: through
reads, joins, calls, stores and assignments, in the order of the statements, until a statement binds
the path anew. A sink is reported only if a label that it requires gets there.
-/
namespace TaintScan

/-- Where a label can be, when a scope has come to a statement: in the fact of a key, in what is known of
a path, or in the value of an expression. -/
inductive Place where
  | fact (scope k : Nat) (key : String)
  | known (scope k : Nat) (path : String)
  | value (scope k : Nat) (id : ExprId)

def Statement.binds (st : Statement) : List String :=
  match st.kind with
  | .assignment | .declaration | .controlOpen _ => st.targets.map factKey
  | _ => []

def ExprArena.hasKey (a : ExprArena) (key : String) (id : ExprId) : Bool :=
  match a.kind? id with
  | some (.variable path) => factKey path == key
  | _ => false

/-- A sanitizer that is called on its own takes a label from the fact of a key. -/
def Registry.cleans (g : Registry) (language : Language) (a : ExprArena) (st : Statement) (l : Label)
    (key : String) : Bool :=
  st.kind == .call &&
    match st.operands.head? >>= a.kind? with
    | some (.call callee _ args constructs) =>
      (g.sanitizerOfCall? callee constructs language).any fun hit =>
        !hit.isPartial && hit.removes.contains l && args.any (a.hasKey key)
    | _ => false

namespace ExtractedUnit

def At (x : ExtractedUnit) (i k : Nat) (st : Statement) : Prop :=
  ∃ scope, x.scopes[i]? = some scope ∧ scope.statements[k]? = some st

/-- An expression that an operand of a statement is built from. -/
def Evaluates (x : ExtractedUnit) (i k : Nat) (id : ExprId) : Prop :=
  ∃ st operand, x.At i k st ∧ operand ∈ st.operands ∧ x.arena.Below (fun _ => true) id operand

end ExtractedUnit

/-- A shape finds a secret that a statement writes to a target. -/
def Registry.FindsSecret (g : Registry) (language : Language) (a : ExprArena) (st : Statement)
    (target : String) : Prop :=
  ∃ context found m, g.matchShapes st a language context = .ok found ∧ m ∈ found ∧
    Site.secretTarget? m = some target

theorem Site.sinkHit?_eq_some {spec : SinkSpec} {args : List (ExprId × Taint)} {arg : ExprId} {t : Taint}
    (h : sinkHit? spec args = some (arg, t)) :
    ∃ n, args[n]? = some (arg, t) ∧ spec.checksArg n = true ∧ t.labels.intersects spec.requires = true := by
  obtain ⟨⟨hit, n⟩, hfind, heq⟩ := Option.map_eq_some_iff.mp h
  have heq : hit = (arg, t) := heq
  subst heq
  have hmem := List.mem_zipIdx_iff_getElem?.mp (List.mem_of_find?_eq_some hfind)
  have hcond := List.find?_some hfind
  dsimp only at hcond
  rw [Bool.and_eq_true] at hcond
  exact ⟨n, hmem, hcond.1, hcond.2⟩

namespace SourceUnit

section

variable (u : SourceUnit) (x : ExtractedUnit) (registry : Registry) (options : AnalysisOptions)
variable (strict : Bool) (l : Label) (o : Span)

/-- A label that is introduced at a span gets to a place. In the strict sense it is not taken away on
the way. -/
inductive Carries : Place → Prop where
  -- Where labels are introduced.
  | param {i : Nat} {scope : Scope} {p : Param} : x.scopes[i]? = some scope →
    options.seedEntryPoints = true → scope.isEntryPoint u.language = true → p ∈ scope.params →
    l = .untrusted → o = p.span → Carries (.fact i 0 p.name)
  | sourcePath {i k : Nat} {st : Statement} {id : ExprId} {path : String} {span : Span} {r : Rule} :
    x.At i k st → x.arena.exprs[id]? = some ⟨.variable path, span⟩ →
    registry.sourceOfPath? path u.language = some (r, l) → o = span ∨ o = st.span →
    Carries (.value i k id)
  | sourceCall {i k : Nat} {st : Statement} {id : ExprId} {callee : String} {receiver : Option ExprId}
    {args : List ExprId} {constructs : Bool} {span : Span} {r : Rule} :
    x.At i k st → x.arena.exprs[id]? = some ⟨.call callee receiver args constructs, span⟩ →
    registry.sourceOfCall? callee constructs u.language = some (r, l) → o = span ∨ o = st.span →
    Carries (.value i k id)
  | caught {i k : Nat} {st : Statement} {target : String} : x.At i k st →
    st.kind = .controlOpen .catchBody → target ∈ st.targets → l = .secret → o = st.span →
    Carries (.fact i (k + 1) (factKey target))
  | routed {i k : Nat} {st : Statement} {path target : String} : x.At i k st →
    st.kind = .controlOpen .lambda → options.seedEntryPoints = true →
    st.operands.head? >>= x.arena.kind? = some (.variable path) →
    routers.contains (Text.afterLast '.' path) = true → target ∈ st.targets → l = .untrusted →
    o = st.span → Carries (.fact i (k + 1) (factKey target))
  | hardCoded {i k : Nat} {st : Statement} {target : String} : x.At i k st →
    registry.FindsSecret u.language x.arena st target → target ∈ st.targets → l = .secret →
    o = st.span → Carries (.fact i (k + 1) (factKey target))
  -- What is known of a path.
  | kept {i k : Nat} {st : Statement} {key : String} : x.At i k st → key ∉ st.binds →
    (strict = true → registry.cleans u.language x.arena st l key = false) →
    Carries (.fact i k key) → Carries (.fact i (k + 1) key)
  | own {i k : Nat} {key path : String} : key ∈ pathHeads (factKey path) →
    Carries (.fact i k key) → Carries (.known i k path)
  | around {i j k : Nat} {scope outer : Scope} {key path : String} : x.scopes[i]? = some scope →
    j ∈ enclosing x.scopes i i scope.parent → x.scopes[j]? = some outer →
    key ∈ pathHeads (factKey path) → (strict = true → l = .secret) →
    Carries (.fact j outer.statements.size key) → Carries (.known i k path)
  -- Values.
  | read {i k : Nat} {id : ExprId} {path : String} {span : Span} :
    x.arena.exprs[id]? = some ⟨.variable path, span⟩ →
    Carries (.known i k path) → Carries (.value i k id)
  | part {i k : Nat} {id part : ExprId} {e : Expr} {parts : List ExprId} : x.arena.exprs[id]? = some e →
    e.kind = .concat parts ∨ e.kind = .compound parts → part ∈ parts →
    Carries (.value i k part) → Carries (.value i k id)
  | call {i k : Nat} {id part : ExprId} {callee : String} {receiver : Option ExprId}
    {args : List ExprId} {constructs : Bool} {span : Span} :
    x.arena.exprs[id]? = some ⟨.call callee receiver args constructs, span⟩ →
    part ∈ receiver.toList ++ args →
    (strict = true → registry.strips u.language l callee constructs = false) →
    Carries (.value i k part) → Carries (.value i k id)
  -- What is written.
  | stored {i k : Nat} {id receiver : ExprId} {callee path : String} {args : List ExprId}
    {constructs : Bool} {span : Span} {source : Place} : x.Evaluates i k id →
    x.arena.exprs[id]? = some ⟨.call callee (some receiver) args constructs, span⟩ →
    mutators.contains (Text.afterLast '.' callee) = true →
    x.arena.kind? receiver = some (.variable path) →
    source = .known i k path ∨ (∃ arg ∈ args, source = .value i k arg) →
    Carries source → Carries (.fact i k (factKey path))
  | assigned {i k : Nat} {st : Statement} {value : ExprId} {target : String} : x.At i k st →
    st.kind = .assignment ∨ st.kind = .declaration → st.operands.head? = some value →
    target ∈ st.targets → Carries (.value i k value) →
    Carries (.fact i (k + 1) (factKey target))
  | updated {i k m : Nat} {st : Statement} {target : String} : x.At i k st →
    st.kind = .assignment ∨ st.kind = .declaration → st.compound = true → target ∈ st.targets →
    m = k ∨ m = k + 1 → Carries (.known i m target) →
    Carries (.fact i (k + 1) (factKey target))
  | bound {i k : Nat} {st : Statement} {kind : ControlKind} {operand : ExprId} {target : String} :
    x.At i k st → st.kind = .controlOpen kind → operand ∈ st.operands → target ∈ st.targets →
    Carries (.value i k operand) → Carries (.fact i (k + 1) (factKey target))

end

variable (u : SourceUnit) (x : ExtractedUnit) (registry : Registry) (options : AnalysisOptions)

/-- What brings a label to a place. -/
def brings (p : Place) : Bool → Label → Span → Prop :=
  fun strict l o => u.Carries x registry options strict l o p

/-! ## Candidates -/

/-- A sink rule checks the value of an expression and reports a span: an argument of a call, or what is
assigned to a target. -/
inductive Checks (i k : Nat) (r : Rule) (spec : SinkSpec) (id : ExprId) (span : Span) : Prop where
  | argument {call : ExprId} {callee : String} {receiver : Option ExprId} {args : List ExprId}
    {constructs : Bool} {n : Nat} : x.Evaluates i k call →
    x.arena.exprs[call]? = some ⟨.call callee receiver args constructs, span⟩ →
    (r, spec) ∈ registry.sinksOfCall callee constructs u.language → args[n]? = some id →
    spec.checksArg n = true → Checks i k r spec id span
  | target {st : Statement} {target : String} : x.At i k st →
    st.kind = .assignment ∨ st.kind = .declaration → target ∈ st.targets →
    st.operands.head? = some id → (r, spec) ∈ registry.sinksOfTarget target u.language →
    span = st.span → Checks i k r spec id span

/-- A candidate is the match of a shape, without a path, or a sink that a label it requires gets to; the
path then starts where some label that gets there was introduced. -/
def Accounts (c : Candidate) : Prop :=
  (c.path = [] ∧ ∃ m, c = .ofShape m) ∨
    ∃ i k spec id, u.Checks x registry i k c.rule spec id c.span ∧
      (∃ l o, c.path.head? = some o ∧ u.Carries x registry options false l o (.value i k id)) ∧
      ∃ l o, spec.requires.contains l = true ∧ u.Carries x registry options true l o (.value i k id)

/-! ## At a statement -/

/-- A site of a pass, at a statement before which some nodes were recorded. -/
structure Standing (s : Site) (i k : Nat) (st : Statement) (nodes : Array Node) : Prop where
  unit : s.unit = u
  arena : s.arena = x.arena
  rules : s.registry = registry
  seed : s.seed = options.seedEntryPoints
  scope : x.scopes[i]? = some s.scope
  statement : s.scope.statements[k]? = some st
  span : s.span = st.span
  firstNode : s.firstNode = nodes.size
  inherited : ∀ facts ∈ s.inherited, ∃ j outer, j ∈ enclosing x.scopes i i s.scope.parent ∧
    x.scopes[j]? = some outer ∧ ∀ (key : String) (t : Taint), facts[key]? = some t →
      t.Rooted nodes (u.brings x registry options (.fact j outer.statements.size key))

/-- What is accounted for while a statement is walked: the facts by what brings labels to their keys. -/
structure Accounted (s : Site) (nodes : Array Node) (B : String → Bool → Label → Span → Prop) (f : Flow) :
    Prop where
  kept : NodesKept nodes f.nodes
  facts : ∀ (key : String) (t : Taint), f.facts[key]? = some t → s.Traced f.nodes (B key) t
  candidates : ∀ c ∈ f.candidates, u.Accounts x registry options c

abbrev AccountedAt (s : Site) (nodes : Array Node) (i k : Nat) : Flow → Prop :=
  u.Accounted x registry options s nodes fun key => u.brings x registry options (.fact i k key)

variable {u x registry options}
variable {s : Site} {i k : Nat} {st : Statement} {nodes : Array Node}
variable {B C : String → Bool → Label → Span → Prop} {f : Flow}

theorem Standing.at (hs : u.Standing x registry options s i k st nodes) : x.At i k st :=
  ⟨s.scope, hs.scope, hs.statement⟩

theorem Standing.language (hs : u.Standing x registry options s i k st nodes) : s.language = u.language := by
  rw [Site.language, hs.unit]

namespace Accounted

variable (h : u.Accounted x registry options s nodes B f)
include h

theorem imp (hBC : ∀ key strict l o, B key strict l o → C key strict l o) :
    u.Accounted x registry options s nodes C f :=
  { h with facts key t ht := (h.facts key t ht).imp (hBC key) }

theorem pushNode (n : Node) : u.Accounted x registry options s nodes B { f with nodes := f.nodes.push n } :=
  { h with
    kept id m hm := nodesKept_push f.nodes n id m (h.kept id m hm)
    facts key t ht := (h.facts key t ht).mono (nodesKept_push f.nodes n) }

theorem setFact {path : String} {t : Taint}
    (hother : ∀ key ≠ factKey path, ∀ strict l o, B key strict l o → C key strict l o)
    (ht : s.Traced f.nodes (C (factKey path)) t) :
    u.Accounted x registry options s nodes C (Track.setFact path t f).2 :=
  { h with
    facts key t' ht' := by
      change (f.facts.insert (factKey path) t)[key]? = some t' at ht'
      rw [Std.HashMap.getElem?_insert] at ht'
      split at ht'
      · next heq =>
        cases ht'
        rw [← eq_of_beq heq]
        exact ht
      · next hne => exact (h.facts key t' ht').imp (hother key fun heq => hne (beq_iff_eq.mpr heq.symm)) }

theorem report {c : Candidate} (hc : u.Accounts x registry options c) :
    u.Accounted x registry options s nodes B { f with candidates := f.candidates.push c } :=
  { h with
    candidates c' hc' := by
      rcases Array.mem_push.mp hc' with hc' | rfl
      · exact h.candidates c' hc'
      · exact hc }

theorem firstNode_le (hs : u.Standing x registry options s i k st nodes) : s.firstNode ≤ f.nodes.size := by
  rw [hs.firstNode]
  exact h.kept.size_le

theorem lookup (hs : u.Standing x registry options s i k st nodes) {path : String}
    {D : Bool → Label → Span → Prop} (hown : ∀ key ∈ pathHeads (factKey path), ∀ strict l o,
      B key strict l o → D strict l o) {m : Nat}
    (haround : ∀ strict l o, u.brings x registry options (.known i m path) strict l o → D strict l o) :
    s.Traced f.nodes D ((s.lookup? f.facts path).getD .clean) := by
  cases hlookup : s.lookup? f.facts path with
  | none => exact .of_clean _ _ _
  | some t =>
    obtain ⟨key, hkey, hfact | ⟨outer, houter, t', ht', hexported⟩⟩ := Site.lookup?_eq_some hlookup
    · exact (h.facts key t hfact).imp (hown key hkey)
    · obtain ⟨j, scope, hj, hscope, hrooted⟩ := hs.inherited outer houter
      have hsize : nodes.size ≤ s.firstNode := Nat.le_of_eq hs.firstNode.symm
      have htraced := (((hrooted key t' ht').exported hexported).traced hsize).mono h.kept
      refine htraced.imp fun strict l o hl => haround strict l o ?_
      exact .around hs.scope hj hscope hkey hl.2 hl.1

end Accounted

/-! ## Evaluation -/

theorem accounts_sinkCandidate (s : Site) {t : Taint} {id : ExprId} {nodes : Array Node}
    (ht : s.Traced nodes (u.brings x registry options (.value i k id)) t) {r : Rule} {spec : SinkSpec}
    {span : Span} (hchecks : u.Checks x registry i k r spec id span)
    (hlabels : t.labels.intersects spec.requires = true) (callee name : String) :
    u.Accounts x registry options (s.sinkCandidate nodes r span t callee name) := by
  obtain ⟨l, hl, hrequired⟩ := LabelSet.exists_contains_of_intersects hlabels
  obtain ⟨n, l', o, hn, ho, hpath, _⟩ := ht.node (Taint.isTainted_of_contains hl)
  obtain ⟨o', ho'⟩ := ht.label l hl
  refine Or.inr ⟨i, k, spec, id, hchecks, ⟨l', o, ?_, hpath⟩, l, o', hrequired, ho'⟩
  change ((pathTo nodes t.node).map (·.span)).head? = some o
  rw [hn]
  exact ho.head?_pathTo

section

variable (hf : u.AccountedAt x registry options s nodes i k f)
variable (hs : u.Standing x registry options s i k st nodes) {id : ExprId} {span : Span}
include hf hs

theorem Accounted.read {path : String} (he : x.arena.exprs[id]? = some ⟨.variable path, span⟩) :
    u.AccountedAt x registry options s nodes i k (s.read path span f).2 ∧
      NodesKept f.nodes (s.read path span f).2.nodes ∧
      s.Traced (s.read path span f).2.nodes (u.brings x registry options (.value i k id))
        (s.read path span f).1 := by
  have hknown : s.Traced f.nodes (u.brings x registry options (.value i k id))
      ((s.lookup? f.facts path).getD .clean) :=
    hf.lookup hs (m := k) (fun key hkey strict l o h => .read he (.own hkey h))
      fun strict l o h => .read he h
  rw [Site.read_apply]
  split
  · next r l hsource =>
    rw [hs.rules, hs.language] at hsource
    have hpush := nodesKept_push f.nodes ⟨span, s.tag, none⟩
    refine ⟨hf.pushNode _, hpush, ?_⟩
    refine (Site.Traced.source s.tag (hf.firstNode_le hs) (fun strict => ?_) ?_).join (hknown.mono hpush)
    · exact .sourcePath hs.at he hsource (Or.inl rfl)
    · exact .sourcePath hs.at he hsource (Or.inr hs.span)
  · dsimp only
    exact ⟨hf, fun _ _ h => h, hknown⟩

theorem Accounted.storeInto {receiver : ExprId} {callee : String} {args : List ExprId} {constructs : Bool}
    {taints : List Taint} (hv : x.Evaluates i k id)
    (he : x.arena.exprs[id]? = some ⟨.call callee (some receiver) args constructs, span⟩)
    (hall : List.Forall₂ (fun arg => s.Traced f.nodes (u.brings x registry options (.value i k arg)))
      args taints) (htaint : (Taint.joinAll taints).isTainted = true)
    (hname : mutators.contains (Text.afterLast '.' callee) = true) :
    u.AccountedAt x registry options s nodes i k (s.storeInto receiver (.joinAll taints) f).2 ∧
      NodesKept f.nodes (s.storeInto receiver (.joinAll taints) f).2.nodes := by
  rw [Site.storeInto_apply]
  split
  · next path hpath =>
    rw [hs.arena] at hpath
    have hstored {source : Place}
        (hsource : source = .known i k path ∨ ∃ arg ∈ args, source = .value i k arg)
        (strict : Bool) (l : Label) (o : Span) (h : u.brings x registry options source strict l o) :
        u.brings x registry options (.fact i k (factKey path)) strict l o :=
      .stored hv he hname hpath hsource h
    have hknown : s.Traced f.nodes (u.brings x registry options (.known i k path))
        ((s.lookup? f.facts path).getD .clean) :=
      hf.lookup hs (m := k) (fun key hkey strict l o h => .own hkey h) fun strict l o h => h
    have hvalue : s.Traced f.nodes (u.brings x registry options (.fact i k (factKey path)))
        (.joinAll taints) :=
      .joinAll hall fun arg harg t ht => ht.imp (hstored (Or.inr ⟨arg, harg, rfl⟩))
    have htainted : (((s.lookup? f.facts path).getD .clean).join (.joinAll taints)).isTainted = true := by
      rw [Taint.isTainted_join, htaint, Bool.or_true]
    dsimp only
    rw [Site.define_apply]
    refine ⟨(hf.pushNode _).setFact (fun _ _ _ _ _ h => h) ?_, nodesKept_push _ _⟩
    exact ((hknown.imp (hstored (Or.inl rfl))).join hvalue).define s.tag (hf.firstNode_le hs) htainted
  · exact ⟨hf, fun _ _ h => h⟩

theorem Accounted.callResult {callee : String} {receiver : Option ExprId} {args : List ExprId} {constructs : Bool}
    {input : Taint} (he : x.arena.exprs[id]? = some ⟨.call callee receiver args constructs, span⟩)
    (hinput : s.Traced f.nodes (fun strict l o =>
      ∃ part ∈ receiver.toList ++ args, u.brings x registry options (.value i k part) strict l o) input) :
    u.AccountedAt x registry options s nodes i k (s.callResult span callee constructs input f).2 ∧
      NodesKept f.nodes (s.callResult span callee constructs input f).2.nodes ∧
      s.Traced (s.callResult span callee constructs input f).2.nodes
        (u.brings x registry options (.value i k id)) (s.callResult span callee constructs input f).1 := by
  have hcall {strict : Bool} {l : Label} {o : Span}
      (hstrips : strict = true → registry.strips u.language l callee constructs = false)
      (h : ∃ part ∈ receiver.toList ++ args, u.brings x registry options (.value i k part) strict l o) :
      u.brings x registry options (.value i k id) strict l o := by
    obtain ⟨part, hpart, h⟩ := h
    exact .call he hpart hstrips h
  rw [Site.callResult_apply, hs.rules, hs.language]
  split
  · next r l hsource =>
    have hpush := nodesKept_push f.nodes ⟨span, s.tag, none⟩
    refine ⟨hf.pushNode _, hpush, ?_⟩
    refine (Site.Traced.source s.tag (hf.firstNode_le hs) (fun strict => ?_) ?_).join
      ((hinput.imp fun strict l o => hcall fun _ => ?_).mono hpush)
    · exact .sourceCall hs.at he hsource (Or.inl rfl)
    · exact .sourceCall hs.at he hsource (Or.inr hs.span)
    · rw [Registry.strips, hsource]
      rfl
  · next hsource =>
    split
    · next hit hhit =>
      refine ⟨hf, fun _ _ h => h, ?_⟩
      dsimp only
      split
      · next hpartial =>
        refine (hinput.imp fun strict l o => hcall fun _ => ?_).withAdjacent _
        rw [Registry.strips, hhit, Option.any_some, hpartial, Bool.not_true, Bool.false_and, Bool.and_false]
      · next hfull =>
        refine (hinput.remove hit.removes).imp fun strict l o h => hcall (fun hstrict => ?_) h.1
        rw [Registry.strips, hhit, Option.any_some, h.2 hstrict, Bool.and_false, Bool.and_false]
    · next hnone =>
      refine ⟨hf, fun _ _ h => h, hinput.imp fun strict l o => hcall fun _ => ?_⟩
      rw [Registry.strips, hnone, Option.any_none, Bool.and_false]

end

/-- The evaluation of the operands of a statement accounts for what it finds. -/
def evaluation (hs : u.Standing x registry options s i k st nodes) : s.Evaluation where
  visits := x.Evaluates i k
  child := by
    rintro id child e ⟨st, operand, hst, hoperand, hbelow⟩ he hchild
    rw [hs.arena] at he
    have hstep : x.arena.Below (fun _ => true) child id := .step he rfl hchild (.refl child)
    exact ⟨st, operand, hst, hoperand, hstep.trans hbelow⟩
  inv := u.AccountedAt x registry options s nodes i k
  le f g := NodesKept f.nodes g.nodes
  good f id t := s.Traced f.nodes (u.brings x registry options (.value i k id)) t
  refl _ := fun _ _ h => h
  trans hfg hgh := fun id n h => hgh id n (hfg id n h)
  good_le hle h := h.mono hle
  absent _ _ := .of_clean _ _ _
  literal _ _ := .of_clean _ _ _
  read hf he := hf.read hs (hs.arena ▸ he)
  parts := by
    intro f id e parts taints _ he hkind hall
    rw [hs.arena] at he
    exact .joinAll hall fun part hpart t ht => ht.imp fun strict l o h => .part he hkind hpart h
  sink := by
    intro f id callee receiver args constructs span taints r spec arg t hv hf he hall hr hhit
    rw [hs.arena] at he
    rw [hs.rules, hs.language] at hr
    obtain ⟨n, hn, hchecked, hlabels⟩ := Site.sinkHit?_eq_some hhit
    have hzip := List.forall₂_zip hall (List.mem_of_getElem? hn)
    have hn : args[n]? = some arg := by
      rw [List.getElem?_zip_eq_some] at hn
      exact hn.1
    have hc := u.accounts_sinkCandidate s hzip (.argument hv he hr hn hchecked) hlabels callee
      (s.describe arg)
    rw [Site.emit_apply]
    exact ⟨hf.report hc, fun _ _ h => h⟩
  store hv hf he hall htaint hname := hf.storeInto hs hv (hs.arena ▸ he) hall htaint hname
  result := by
    intro f id callee receiver args constructs span receivers taints hf he hr ha
    rw [hs.arena] at he
    refine hf.callResult hs he (.join (.joinAll hr fun part hpart t ht => ?_)
      (.joinAll ha fun part hpart t ht => ?_))
    · exact ht.imp fun strict l o h => ⟨part, List.mem_append_left _ hpart, h⟩
    · exact ht.imp fun strict l o h => ⟨part, List.mem_append_right _ hpart, h⟩

end SourceUnit
end TaintScan
