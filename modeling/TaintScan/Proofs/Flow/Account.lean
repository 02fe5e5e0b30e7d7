import TaintScan.Proofs.Flow.Provenance

/-! # What a pass accounts for

A statement moves the labels of its operands to its targets, and takes away those that a sanitizer
called on its own removes; all other facts it keeps. So what accounts for the facts before a statement
accounts for them behind it, and along a whole pass.
-/
namespace TaintScan

namespace SourceUnit

variable {u : SourceUnit} {x : ExtractedUnit} {registry : Registry} {options : AnalysisOptions}
variable {s : Site} {i k : Nat} {st : Statement} {nodes : Array Node}
variable {B C : String → Bool → Label → Span → Prop} {f : Flow} {secretTargets : List String}

/-! ## Keys that are left alone -/

theorem cleans_of_kind_ne (h : st.kind ≠ .call) (l : Label) (key : String) :
    registry.cleans u.language x.arena st l key = false := by
  have hkind : (st.kind == .call) = false := beq_false_of_ne h
  rw [Registry.cleans, hkind, Bool.false_and]

/-! ## Sanitizers that are called on their own -/

theorem Accounted.cleanArgument (h : u.Accounted x registry options s nodes B f) (removes : LabelSet)
    (arg : ExprId) :
    u.Accounted x registry options s nodes (fun key strict l o => B key strict l o ∧
      (strict = true → (removes.contains l && s.arena.hasKey key arg) = false))
      (s.cleanArgument removes arg f).2 := by
  unfold Site.cleanArgument ExprArena.hasKey
  cases hkind : s.arena.kind? arg with
  | none => exact h.imp fun key strict l o hl => ⟨hl, fun _ => Bool.and_false _⟩
  | some kind =>
    cases kind with
    | «variable» path =>
      dsimp only
      split
      · next t ht =>
        refine ⟨h.kept, fun key t' ht' => ?_, h.candidates⟩
        dsimp only at ht'
        rw [Std.HashMap.getElem?_insert] at ht'
        split at ht'
        · next heq =>
          cases ht'
          cases eq_of_beq heq
          refine ((h.facts _ t ht).remove removes).imp fun strict l o hl => ⟨hl.1, fun hstrict => ?_⟩
          rw [hl.2 hstrict, Bool.false_and]
        · next hne =>
          have hne : (factKey path == key) = false := by simpa using hne
          exact (h.facts key t' ht').imp fun strict l o hl => ⟨hl, fun _ => by rw [hne, Bool.and_false]⟩
      · next hnone =>
        refine ⟨h.kept, fun key t' ht' => (h.facts key t' ht').imp fun strict l o hl =>
          ⟨hl, fun _ => ?_⟩, h.candidates⟩
        have hne : (factKey path == key) = false := by
          refine beq_false_of_ne fun heq => ?_
          subst heq
          cases hnone.symm.trans ht'
        rw [hne, Bool.and_false]
    | _ => exact h.imp fun key strict l o hl => ⟨hl, fun _ => Bool.and_false _⟩

theorem Accounted.cleanAll (h : u.Accounted x registry options s nodes B f) (removes : LabelSet)
    (args : List ExprId) :
    u.Accounted x registry options s nodes (fun key strict l o => B key strict l o ∧
      (strict = true → (removes.contains l && args.any (s.arena.hasKey key)) = false))
      (Track.each (s.cleanArgument removes) args f).2 := by
  induction args generalizing B f with
  | nil => exact h.imp fun key strict l o hl => ⟨hl, fun _ => Bool.and_false _⟩
  | cons arg rest ih =>
    refine (ih (h.cleanArgument removes arg)).imp fun key strict l o hl => ⟨hl.1.1, fun hstrict => ?_⟩
    rw [List.any_cons, Bool.and_or_distrib_left, hl.1.2 hstrict, hl.2 hstrict]
    rfl

/-! ## Targets -/

def bringsUntil (u : SourceUnit) (x : ExtractedUnit) (registry : Registry) (options : AnalysisOptions)
    (i k : Nat) (rest : List String) (key : String) (strict : Bool) (l : Label) (o : Span) : Prop :=
  u.brings x registry options (.fact i (k + 1) key) strict l o ∨
    key ∈ rest.map factKey ∧ u.brings x registry options (.fact i k key) strict l o

theorem Accounted.bindAll {p : String → Track Unit} {T : Flow → Prop} {targets : List String}
    (hp : ∀ target ∈ targets, ∀ rest f,
      u.Accounted x registry options s nodes (u.bringsUntil x registry options i k (target :: rest)) f →
      T f → u.Accounted x registry options s nodes (u.bringsUntil x registry options i k rest) (p target f).2 ∧
        T (p target f).2)
    (h : u.Accounted x registry options s nodes (u.bringsUntil x registry options i k targets) f) (hT : T f) :
    u.AccountedAt x registry options s nodes i (k + 1) (Track.each p targets f).2 := by
  induction targets generalizing f with
  | nil => exact h.imp fun key strict l o hl => hl.resolve_right fun hmem => List.not_mem_nil hmem.1
  | cons target rest ih =>
    obtain ⟨htarget, hrest⟩ := List.forall_mem_cons.mp hp
    obtain ⟨hnext, hT⟩ := htarget rest f h hT
    exact ih hrest hnext hT

theorem bringsUntil_of_ne {target key : String} {rest : List String} (hne : key ≠ factKey target)
    {strict : Bool} {l : Label} {o : Span}
    (h : u.bringsUntil x registry options i k (target :: rest) key strict l o) :
    u.bringsUntil x registry options i k rest key strict l o := by
  refine h.imp_right fun hmem => ⟨?_, hmem.2⟩
  rw [List.map_cons, List.mem_cons] at hmem
  exact hmem.1.resolve_left hne

theorem path_of_routesRequests (h : s.routesRequests st = true) :
    s.seed = true ∧ ∃ path, st.operands.head? >>= s.arena.kind? = some (.variable path) ∧
      routers.contains (Text.afterLast '.' path) = true := by
  rw [Site.routesRequests, Bool.and_eq_true] at h
  refine ⟨h.1, ?_⟩
  have hroute := h.2
  split at hroute
  · next path hpath => exact ⟨path, hpath, hroute⟩
  · cases hroute

variable (hs : u.Standing x registry options s i k st nodes)
include hs

theorem Accounted.keepAll (h : u.AccountedAt x registry options s nodes i k f) (hbinds : st.binds = [])
    (hcleans : ∀ l key, registry.cleans u.language x.arena st l key = false) :
    u.AccountedAt x registry options s nodes i (k + 1) f :=
  h.imp fun key _ l _ hl =>
    .kept hs.at (hbinds ▸ List.not_mem_nil) (fun _ => hcleans l key) hl

theorem Accounted.sanitize (h : u.AccountedAt x registry options s nodes i k f) (hkind : st.kind = .call) :
    u.AccountedAt x registry options s nodes i (k + 1)
      (Track.each s.sanitizeInPlace st.operands.head?.toList f).2 := by
  have hbinds : st.binds = [] := by rw [Statement.binds, hkind]
  cases hhead : st.operands.head? with
  | none =>
    refine h.keepAll hs hbinds fun l key => ?_
    rw [Registry.cleans, hhead]
    exact Bool.and_false _
  | some call =>
    have hoperand : st.operands.head? >>= x.arena.kind? = s.arena.kind? call := by
      rw [hhead, hs.arena]
      rfl
    change u.Accounted x registry options s nodes _ (s.sanitizeInPlace call f).2
    unfold Site.sanitizeInPlace
    cases hcall : s.arena.kind? call with
    | none =>
      refine h.keepAll hs hbinds fun l key => ?_
      simp only [Registry.cleans, hoperand, hcall, Bool.and_false]
    | some kind =>
      cases kind with
      | call callee receiver args constructs =>
        have hcleans (l : Label) (key : String) : registry.cleans u.language x.arena st l key =
            (registry.sanitizerOfCall? callee constructs u.language).any fun hit =>
              !hit.isPartial && hit.removes.contains l && args.any (s.arena.hasKey key) := by
          simp only [Registry.cleans, hoperand, hcall, hkind, beq_self_eq_true, Bool.true_and]
          rw [hs.arena]
        dsimp only
        rw [hs.rules, hs.language]
        cases hhit : registry.sanitizerOfCall? callee constructs u.language with
        | none => exact h.keepAll hs hbinds fun l key => by rw [hcleans, hhit, Option.any_none]
        | some hit =>
          simp only [hhit, Option.any_some] at hcleans
          dsimp only
          split
          · next hfull =>
            refine (h.cleanAll hit.removes args).imp fun key strict l o hl =>
              .kept hs.at (hbinds ▸ List.not_mem_nil) (fun hstrict => ?_) hl.1
            rw [hcleans, Bool.and_assoc, hl.2 hstrict, Bool.and_false]
          · next hpartial =>
            refine h.keepAll hs hbinds fun l key => ?_
            rw [hcleans, Bool.eq_false_iff.mpr hpartial, Bool.false_and, Bool.false_and]
      | _ =>
        refine h.keepAll hs hbinds fun l key => ?_
        simp only [Registry.cleans, hoperand, hcall, Bool.and_false]

/-! ## Blocks -/

theorem Accounted.beforeTargets (h : u.AccountedAt x registry options s nodes i k f) (hkind : st.kind ≠ .call)
    (hbinds : st.binds = st.targets.map factKey) :
    u.Accounted x registry options s nodes (u.bringsUntil x registry options i k st.targets) f := by
  refine h.imp fun key strict l o hl => ?_
  by_cases hkey : key ∈ st.targets.map factKey
  · exact Or.inr ⟨hkey, hl⟩
  · exact Or.inl (.kept hs.at (hbinds ▸ hkey) (fun _ => cleans_of_kind_ne hkind l key) hl)

theorem Accounted.bound (h : u.Accounted x registry options s nodes B f) {kind : ControlKind}
    (hkind : st.kind = .controlOpen kind) {t : Taint}
    (ht : s.Traced f.nodes (fun strict l o => ∃ id ∈ st.operands,
      u.brings x registry options (.value i k id) strict l o) t) :
    u.Accounted x registry options s nodes B (s.bound st kind t f).2 ∧
      ∀ target ∈ st.targets, s.Traced (s.bound st kind t f).2.nodes
        (u.brings x registry options (.fact i (k + 1) (factKey target))) (s.bound st kind t f).1 := by
  have hfirst := h.firstNode_le hs
  unfold Site.bound
  split
  · next hcatch =>
    rw [eq_of_beq hcatch] at hkind
    rw [Site.define_apply]
    refine ⟨h.pushNode _, fun target htarget => .source s.tag hfirst (fun strict => ?_) ?_⟩
    · exact .caught hs.at hkind htarget rfl hs.span
    · exact .caught hs.at hkind htarget rfl hs.span
  · split
    · next hroute =>
      obtain ⟨hlambda, hroute⟩ := Bool.and_eq_true_iff.mp hroute
      obtain ⟨hseed, path, hpath, hrouter⟩ := path_of_routesRequests hroute
      rw [eq_of_beq hlambda] at hkind
      rw [hs.seed] at hseed
      rw [hs.arena] at hpath
      rw [Site.define_apply]
      refine ⟨h.pushNode _, fun target htarget => .source s.tag hfirst (fun strict => ?_) ?_⟩
      · exact .routed hs.at hkind hseed hpath hrouter htarget rfl hs.span
      · exact .routed hs.at hkind hseed hpath hrouter htarget rfl hs.span
    · split
      · next htainted =>
        rw [Site.define_apply]
        refine ⟨h.pushNode _, fun target htarget => ?_⟩
        refine Site.Traced.define (ht.imp fun strict l o hl => ?_) s.tag hfirst htainted
        obtain ⟨id, hid, hl⟩ := hl
        exact .bound hs.at hkind hid htarget hl
      · exact ⟨h, fun _ _ => .of_clean _ _ _⟩

/-! ## Assignments -/

def bringsValue (u : SourceUnit) (x : ExtractedUnit) (registry : Registry) (options : AnalysisOptions)
    (i k : Nat) (st : Statement) (strict : Bool) (l : Label) (o : Span) : Prop :=
  ∃ id, st.operands.head? = some id ∧ u.brings x registry options (.value i k id) strict l o

theorem Accounted.reportTargetSinks (h : u.Accounted x registry options s nodes B f)
    (hkind : st.kind = .assignment ∨ st.kind = .declaration) {target : String}
    (htarget : target ∈ st.targets) {t : Taint}
    (ht : s.Traced f.nodes (u.bringsValue x registry options i k st) t) :
    u.Accounted x registry options s nodes B (s.reportTargetSinks target st.operands.head? t f).2 ∧
      NodesKept f.nodes (s.reportTargetSinks target st.operands.head? t f).2.nodes := by
  unfold Site.reportTargetSinks
  split
  · next htainted =>
    obtain ⟨_, _, _, _, _, ⟨id, hid, _⟩, _⟩ := ht.node htainted
    have hvalue : s.Traced f.nodes (u.brings x registry options (.value i k id)) t := by
      refine ht.imp fun strict l o hl => ?_
      obtain ⟨id', hid', hl⟩ := hl
      cases hid.symm.trans hid'
      exact hl
    refine Track.each_inv (fun g => u.Accounted x registry options s nodes B g ∧
      NodesKept f.nodes g.nodes) (fun p hp g hg => ?_) ⟨h, fun _ _ h => h⟩
    rw [hs.rules, hs.language] at hp
    split
    · next hlabels =>
      have hc := accounts_sinkCandidate s (hvalue.mono hg.2)
        (.target hs.at hkind htarget hid hp hs.span) hlabels target
        ((st.operands.head?.map s.describe).getD "")
      rw [Site.emit_apply]
      exact ⟨hg.1.report hc, hg.2⟩
    · exact hg
  · exact ⟨h, fun _ _ h => h⟩

section

variable (hf : u.Accounted x registry options s nodes B f)
variable (hkind : st.kind = .assignment ∨ st.kind = .declaration)
variable {target : String} (htarget : target ∈ st.targets)
variable (hB : ∀ key strict l o, B key strict l o →
  ∃ m, (m = k ∨ m = k + 1) ∧ u.brings x registry options (.fact i m key) strict l o)
variable {t : Taint} (ht : s.Traced f.nodes (u.bringsValue x registry options i k st) t)
include hf hkind htarget hB ht

theorem Accounted.assigned :
    s.Traced f.nodes (u.brings x registry options (.fact i (k + 1) (factKey target)))
      (if st.compound then ((s.lookup? f.facts target).getD .clean).join t else t) := by
  have hvalue : s.Traced f.nodes (u.brings x registry options (.fact i (k + 1) (factKey target))) t := by
    refine ht.imp fun strict l o hl => ?_
    obtain ⟨id, hid, hl⟩ := hl
    exact .assigned hs.at hkind hid htarget hl
  split
  · next hcompound =>
    refine .join (hf.lookup hs (m := k) (fun key hkey strict l o hl => ?_) fun strict l o hl => ?_) hvalue
    · obtain ⟨m, hm, hl⟩ := hB key strict l o hl
      exact .updated hs.at hkind hcompound htarget hm (.own hkey hl)
    · exact .updated hs.at hkind hcompound htarget (Or.inl rfl) hl
  · exact hvalue

theorem Accounted.written {secretTargets : List String}
    (hsecret : ∀ target ∈ secretTargets, registry.FindsSecret u.language x.arena st target) :
    (∀ l, (s.written st secretTargets t target f.facts).labels.contains l = true →
      ∃ o, u.brings x registry options (.fact i (k + 1) (factKey target)) true l o) ∧
    ((s.written st secretTargets t target f.facts).isTainted = true → ∃ l, s.Folds f.nodes
      (u.brings x registry options (.fact i (k + 1) (factKey target)) false l)
      (s.folded f.nodes (s.written st secretTargets t target f.facts).node)) := by
  have hbase := hf.assigned hs hkind htarget hB ht
  unfold Site.written
  dsimp only
  generalize (if st.compound then ((s.lookup? f.facts target).getD .clean).join t else t) = b at hbase
  split
  · next hmem =>
    have hsecret {strict : Bool} :
        u.brings x registry options (.fact i (k + 1) (factKey target)) strict .secret st.span :=
      .hardCoded hs.at (hsecret target (List.contains_iff_mem.mp hmem)) htarget rfl rfl
    refine ⟨fun l hl => ?_, fun _ => ?_⟩
    · rw [LabelSet.insert, LabelSet.contains_union, Bool.or_eq_true] at hl
      rcases hl with hl | hl
      · exact hbase.label l hl
      · cases l with
        | untrusted => cases hl
        | secret => exact ⟨st.span, hsecret⟩
    · dsimp only
      cases htainted : b.isTainted with
      | true => exact hbase.folds htainted
      | false =>
        rw [hbase.clean htainted]
        refine ⟨.secret, ?_⟩
        change u.brings x registry options (.fact i (k + 1) (factKey target)) false .secret s.span
        rw [hs.span]
        exact hsecret
  · exact ⟨hbase.label, hbase.folds⟩

end

theorem Accounted.assign {rest : List String} {target : String}
    (h : u.Accounted x registry options s nodes (u.bringsUntil x registry options i k (target :: rest)) f)
    (hkind : st.kind = .assignment ∨ st.kind = .declaration)
    (htarget : target ∈ st.targets) {t : Taint} (ht : s.Traced f.nodes (u.bringsValue x registry options i k st) t)
    (hsecret : ∀ target ∈ secretTargets, registry.FindsSecret u.language x.arena st target) :
    u.Accounted x registry options s nodes (u.bringsUntil x registry options i k rest)
        (s.assign st secretTargets t target f).2 ∧
      s.Traced (s.assign st secretTargets t target f).2.nodes (u.bringsValue x registry options i k st) t := by
  obtain ⟨hg, hkept⟩ := h.reportTargetSinks hs hkind htarget ht
  have ht := ht.mono hkept
  rw [Site.assign_apply]
  dsimp only
  generalize (s.reportTargetSinks target st.operands.head? t f).2 = g at hg ht
  obtain ⟨hlabel, hfold⟩ := hg.written hs hkind htarget (fun key strict l o hl => by
    rcases hl with hl | ⟨_, hl⟩
    · exact ⟨k + 1, Or.inr rfl, hl⟩
    · exact ⟨k, Or.inl rfl, hl⟩) ht hsecret
  generalize s.written st secretTargets t target g.facts = w at hlabel hfold
  have hother : ∀ key ≠ factKey target, ∀ strict l o,
      u.bringsUntil x registry options i k (target :: rest) key strict l o →
      u.bringsUntil x registry options i k rest key strict l o :=
    fun key hne strict l o hl => bringsUntil_of_ne hne hl
  split
  · next htainted =>
    obtain ⟨l, hfold⟩ := hfold htainted
    rw [Site.define_apply]
    refine ⟨(hg.pushNode _).setFact hother ?_, ht.mono (nodesKept_push _ _)⟩
    exact (Site.Traced.defined s.tag (hg.firstNode_le hs) hlabel htainted hfold).imp
      fun strict l o hl => Or.inl hl
  · next hclean =>
    refine ⟨hg.setFact hother ⟨fun l hl => ?_, fun htainted => absurd htainted hclean, fun _ => rfl⟩, ht⟩
    obtain ⟨o, ho⟩ := hlabel l hl
    exact ⟨o, Or.inl ho⟩

/-! ## Statements -/

variable (ha : x.arena.Sound) (hst : ∀ id ∈ st.operands, id < x.arena.size)
variable (h : u.AccountedAt x registry options s nodes i k f)
include ha hst h

theorem Accounted.operands :
    u.AccountedAt x registry options s nodes i k (Track.each s.eval st.operands f).2 ∧
    List.Forall₂ (fun id t => s.Traced (Track.each s.eval st.operands f).2.nodes
      (u.brings x registry options (.value i k id)) t) st.operands (Track.each s.eval st.operands f).1 := by
  rw [← hs.arena] at ha hst
  obtain ⟨hinv, _, hgood⟩ := (evaluation hs).evalAll ha hst
    (fun id hid => ⟨st, id, hs.at, hid, .refl id⟩) h
  exact ⟨hinv, hgood⟩

theorem Accounted.openBlock {kind : ControlKind} (hkind : st.kind = .controlOpen kind) :
    u.AccountedAt x registry options s nodes i (k + 1) (s.openBlock st kind f).2 := by
  obtain ⟨heval, hvalues⟩ := h.operands hs ha hst
  have hbinds : st.binds = st.targets.map factKey := by rw [Statement.binds, hkind]
  have hcall : st.kind ≠ .call := fun hcall => nomatch hkind.symm.trans hcall
  rw [Site.openBlock_apply]
  dsimp only
  split
  · next hempty =>
    rw [List.isEmpty_iff.mp hempty] at hbinds
    exact heval.keepAll hs hbinds fun l key => cleans_of_kind_ne hcall l key
  · have hoperands := Site.Traced.joinAll hvalues fun id hid t ht =>
      ht.imp fun strict l o hl => (⟨id, hid, hl⟩ : ∃ id ∈ st.operands,
        u.brings x registry options (.value i k id) strict l o)
    obtain ⟨hflow, htargets⟩ := (heval.beforeTargets hs hcall hbinds).bound hs hkind hoperands
    refine hflow.bindAll (T := fun g => ∀ target ∈ st.targets, s.Traced g.nodes
      (u.brings x registry options (.fact i (k + 1) (factKey target))) _) ?_ htargets
    intro target htarget rest g hg hT
    refine ⟨hg.setFact (fun key hne strict l o hl => bringsUntil_of_ne hne hl) ?_, hT⟩
    exact (hT target htarget).imp fun strict l o hl => Or.inl hl

theorem Accounted.assignment (hkind : st.kind = .assignment ∨ st.kind = .declaration)
    (hsecret : ∀ target ∈ secretTargets, registry.FindsSecret u.language x.arena st target) :
    u.AccountedAt x registry options s nodes i (k + 1) (s.assignment st secretTargets f).2 := by
  obtain ⟨heval, hvalues⟩ := h.operands hs ha hst
  have hbinds : st.binds = st.targets.map factKey := by
    rcases hkind with hkind | hkind
    · rw [Statement.binds, hkind]
    · rw [Statement.binds, hkind]
  have hcall : st.kind ≠ .call := by
    intro hcall
    rcases hkind with hkind | hkind
    · cases hkind.symm.trans hcall
    · cases hkind.symm.trans hcall
  have hvalue : s.Traced (Track.each s.eval st.operands f).2.nodes (u.bringsValue x registry options i k st)
      ((Track.each s.eval st.operands f).1.headD .clean) := by
    unfold bringsValue
    generalize (Track.each s.eval st.operands f).1 = taints at hvalues ⊢
    generalize (Track.each s.eval st.operands f).2.nodes = after at hvalues ⊢
    generalize st.operands = operands at hvalues ⊢
    cases hvalues with
    | nil => exact .of_clean _ _ _
    | cons hfirst _ => exact hfirst.imp fun strict l o hl => ⟨_, rfl, hl⟩
  refine (heval.beforeTargets hs hcall hbinds).bindAll
    (T := fun g => s.Traced g.nodes (u.bringsValue x registry options i k st) _) ?_ hvalue
  intro target htarget rest g hg ht
  exact hg.assign hs hkind htarget ht hsecret

theorem Accounted.effect
    (hsecret : ∀ target ∈ secretTargets, registry.FindsSecret u.language x.arena st target) :
    u.AccountedAt x registry options s nodes i (k + 1) (s.effect st secretTargets f).2 := by
  have hkeep (hbinds : st.binds = []) (hcall : st.kind ≠ .call) {g : Flow}
      (hg : u.AccountedAt x registry options s nodes i k g) :
      u.AccountedAt x registry options s nodes i (k + 1) g :=
    hg.keepAll hs hbinds fun l key => cleans_of_kind_ne hcall l key
  have hoperands := (h.operands hs ha hst).1
  unfold Site.effect
  cases hkind : st.kind with
  | unparsed => exact hkeep (by rw [Statement.binds, hkind]) (by rw [hkind]; nofun) h
  | controlClose => exact hkeep (by rw [Statement.binds, hkind]) (by rw [hkind]; nofun) h
  | controlOpen kind => exact h.openBlock hs ha hst hkind
  | assignment => exact h.assignment hs ha hst (Or.inl hkind) hsecret
  | declaration => exact h.assignment hs ha hst (Or.inr hkind) hsecret
  | call =>
    dsimp only
    unfold Site.expression
    simp only [Track.bind_apply, hkind]
    exact hoperands.sanitize hs hkind
  | expression =>
    dsimp only
    unfold Site.expression
    simp only [Track.bind_apply, hkind]
    exact hkeep (by rw [Statement.binds, hkind]) (by rw [hkind]; nofun) hoperands

end SourceUnit
end TaintScan
