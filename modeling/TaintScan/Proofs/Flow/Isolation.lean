import Mathlib.Logic.Relation
import TaintScan.Proofs.Flow.Order
import TaintScan.Proofs.Flow.Twin

/-! # Scopes are isolated

All scopes of a unit share one list of definitions and one list of candidates, and a scope sees facts of
the scopes around it. Still, what is emitted while a scope is walked depends on that scope and the
scopes around it only: the definitions of the others are never on a way back.
-/
namespace TaintScan

/-! ## All definitions are kept -/

theorem Site.Keeps.evalTo {s : Site} {inv : Flow → Prop} (K : s.Keeps inv) (fuel : Nat) (id : ExprId) {f : Flow}
    (hf : inv f) : inv (s.evalTo fuel id f).2 := by
  induction fuel generalizing id f with
  | zero => exact hf
  | succ n ih =>
    have children {f : Flow} (hf : inv f) (ids : List ExprId) : inv (Track.each (s.evalTo n) ids f).2 :=
      Track.each_inv inv (fun id _ _ hf => ih id hf) hf
    rw [Site.evalTo]
    cases s.arena.exprs[id]? with
    | none => exact hf
    | some e =>
      obtain ⟨kind, span⟩ := e
      cases kind with
      | literal kind value => exact hf
      | «variable» path => exact K.read path span hf
      | concat parts => exact children hf parts
      | compound parts => exact children hf parts
      | call callee receiver args constructs =>
        have hsinks (taints : List (ExprId × Taint)) :=
          K.reportSinks span callee constructs taints (children (children hf receiver.toList) args)
        simp only [Track.bind_apply]
        split
        · exact K.callResult span callee constructs _ (Track.each_inv inv (fun r _ _ hf => K.storeInto r _ hf) (hsinks _))
        · exact K.callResult span callee constructs _ (hsinks _)

namespace Site

variable {s : Site}

theorem statement_kept {st : Statement} {f f' : Flow} (h : s.statement st f = .ok f') :
    NodesKept f.nodes f'.nodes := by
  obtain ⟨found, -, rfl⟩ := statement_eq_ok_iff.mp h
  have K := (s.atStatement st f).nodesKept_keeps f.nodes
  refine K.effect_of_operands _ ?_ fun _ => .refl _
  exact Track.each_inv (fun g => NodesKept f.nodes g.nodes) (fun id _ _ hf => K.evalTo _ id hf) (.refl _)

theorem walk_kept {sts : List Statement} {f f' : Flow} {p p' : Progress} (h : s.walk sts f p = (.ok f', p')) :
    NodesKept f.nodes f'.nodes := by
  induction sts generalizing f p with
  | nil =>
    cases h
    exact .refl _
  | cons st rest ih =>
    rw [walk] at h
    split at h
    · cases h
    · split at h
      · cases h
      · next hst => exact (statement_kept hst).trans (ih h)

theorem walk_candidates {sts : List Statement} {f f' : Flow} {p p' : Progress} (h : s.walk sts f p = (.ok f', p')) :
    f.candidates.toList <+: f'.candidates.toList := by
  have K (s : Site) (cs : List Candidate) : s.Keeps fun f => cs <+: f.candidates.toList :=
    { pushNode := fun _ h => h
      withFacts := fun _ h => h
      report := fun _ _ _ _ _ h => by
        rw [emit_apply, Array.toList_push]
        exact h.trans (List.prefix_append _ _) }
  induction sts generalizing f p with
  | nil =>
    cases h
    exact List.prefix_rfl
  | cons st rest ih =>
    rw [walk] at h
    split at h
    · cases h
    · split at h
      · cases h
      · next f₁ hst =>
        obtain ⟨found, -, rfl⟩ := statement_eq_ok_iff.mp hst
        have hfound : f.candidates.toList <+: (f.candidates ++ (found.map Candidate.ofShape).toArray).toList := by
          rw [Array.toList_append]
          exact List.prefix_append _ _
        refine List.IsPrefix.trans ?_ (ih h)
        refine (K _ f.candidates.toList).effect_of_operands _ ?_ fun _ => hfound
        exact Track.each_inv (fun g => f.candidates.toList <+: g.candidates.toList)
          (fun id _ _ hf => (K _ _).evalTo _ id hf) hfound

theorem seedParams_kept (s : Site) (f : Flow) : NodesKept f.nodes (s.seedParams f).2.nodes := by
  unfold seedParams
  split
  · refine Track.each_inv (fun g => NodesKept f.nodes g.nodes) (fun p _ g hg => ?_) (.refl _)
    exact hg.trans (nodesKept_push _ _)
  · exact .refl _

theorem walk_never_left (sts : List Statement) (f : Flow) (n : Nat) :
    ∃ m, (s.walk sts f ⟨.never, n⟩).2 = ⟨.never, m⟩ := by
  induction sts generalizing f n with
  | nil => exact ⟨n, rfl⟩
  | cons st rest ih =>
    simp only [walk, Countdown.poll, Countdown.never]
    cases s.statement st f with
    | error e => exact ⟨n, rfl⟩
    | ok f' => exact ih f' (n + 1)

end Site

/-! ## The walks of one scope -/

namespace Flow.Twin

variable {s t : Site} {c c' : List Candidate} {f g : Flow}

theorem atStatement (hf : f.Twin s t c c' g) (st : Statement) :
    f.Twin (s.atStatement st f) (t.atStatement st g) c c' g := by
  have hlinked : ∀ a b, s.Linked t f g a b → (s.atStatement st f).Linked (t.atStatement st g) f g a b := by
    intro a b hab
    have hlt := hab.1.lt_size
    exact ⟨hab.1, iff_of_false (Nat.not_le.mpr hlt.1) (Nat.not_le.mpr hlt.2)⟩
  exact ⟨hf.facts.mono hlinked, hf.inherited.imp fun _ _ h => h.mono hlinked, ⟨Nat.le_refl _, Nat.le_refl _⟩,
    hf.candidates⟩

theorem behindStatement (hs : s.firstNode = 0) (ht : t.firstNode = 0) {st : Statement} {f₀ g₀ : Flow}
    (hf : f.Twin (s.atStatement st f₀) (t.atStatement st g₀) c c' g) : f.Twin s t c c' g := by
  have hlinked : ∀ a b, (s.atStatement st f₀).Linked (t.atStatement st g₀) f g a b → s.Linked t f g a b := by
    intro a b hab
    refine ⟨hab.1, ?_⟩
    rw [hs, ht]
    exact iff_of_true (Nat.zero_le a) (Nat.zero_le b)
  refine ⟨hf.facts.mono hlinked, hf.inherited.imp fun _ _ h => h.mono hlinked, ?_, hf.candidates⟩
  rw [hs, ht]
  exact ⟨Nat.zero_le _, Nat.zero_le _⟩

end Flow.Twin

namespace Site.Twin

open Track

variable {s t : Site} {c c' : List Candidate} {f g : Flow} (h : s.Twin t)
include h

theorem atStatement (st : Statement) (f g : Flow) : (s.atStatement st f).Twin (t.atStatement st g) :=
  { h with span := rfl, tag := rfl }

theorem seedParams (hf : f.Twin s t c c' g) :
    Leads (s.twins t c c') f g (s.seedParams f) (t.seedParams g) := by
  unfold Site.seedParams
  rw [h.seed, h.isEntryPoint, h.scope]
  split
  · refine .forEach hf fun p _ f' g' hf' _ _ => ?_
    have hpush := hf'.pushNode .none p.span 0
    exact ⟨hpush.rel.insertFact p.name (.labelled _ hpush.result), hpush.grows, trivial⟩
  · exact .pure hf trivial

variable (hs : s.firstNode = 0) (ht : t.firstNode = 0)
include hs ht

theorem statement (hf : f.Twin s t c c' g) (st : Statement) :
    (∃ e, s.statement st f = .error e ∧ t.statement st g = .error e) ∨
      ∃ f' g', s.statement st f = .ok f' ∧ t.statement st g = .ok g' ∧ f'.Twin s t c c' g' := by
  have hat := h.atStatement st f g
  have hf := hf.atStatement st
  unfold Site.statement
  dsimp only
  rw [hat.registry, hat.arena, hat.language, hat.context hf]
  cases (s.atStatement st f).registry.matchShapes st (s.atStatement st f).arena (s.atStatement st f).language
    ((s.atStatement st f).context f.facts) with
  | error e => exact Or.inl ⟨e, rfl, rfl⟩
  | ok found =>
    have heffect := (hat.mirrors c c').effect (hf.reportAll (found.map Candidate.ofShape)) st
      (found.filterMap secretTarget?)
    exact Or.inr ⟨_, _, rfl, rfl, heffect.rel.behindStatement hs ht⟩

theorem walk (hf : f.Twin s t c c' g) (sts : List Statement) (n m : Nat) :
    (∃ e, (s.walk sts f ⟨.never, n⟩).1 = .error e ∧ (t.walk sts g ⟨.never, m⟩).1 = .error e) ∨
      ∃ f' g', (s.walk sts f ⟨.never, n⟩).1 = .ok f' ∧ (t.walk sts g ⟨.never, m⟩).1 = .ok g' ∧
        f'.Twin s t c c' g' := by
  induction sts generalizing f g n m with
  | nil => exact Or.inr ⟨f, g, rfl, rfl, hf⟩
  | cons st rest ih =>
    simp only [Site.walk, Countdown.poll, Countdown.never]
    obtain ⟨e, hse, hte⟩ | ⟨f', g', hsf, htg, hf'⟩ := h.statement hs ht hf st
    · rw [hse, hte, h.unit, h.scope]
      exact Or.inl ⟨_, rfl, rfl⟩
    · rw [hsf, htg]
      exact ih hf' (n + 1) (m + 1)

end Site.Twin

/-! ## Units that agree around a scope -/

/-- The scopes are enclosed directly. -/
def parentOf (scopes : Array Scope) (i j : Nat) : Prop := ∃ scope, scopes[i]? = some scope ∧ scope.parent = some j

/-- Two units with one arena have the same scope at `i` and the same scopes around it. -/
structure ExtractedUnit.SameAround (x y : ExtractedUnit) (i : Nat) : Prop where
  arena : x.arena = y.arena
  scope : x.scopes[i]? = y.scopes[i]?
  ancestors : ∀ j, Relation.TransGen (parentOf x.scopes) i j → x.scopes[j]? = y.scopes[j]?

namespace ExtractedUnit.SameAround

variable {x y : ExtractedUnit} {i j : Nat}

theorem parent (h : x.SameAround y i) (hij : parentOf x.scopes i j) : x.SameAround y j where
  arena := h.arena
  scope := h.ancestors j (.single hij)
  ancestors k hk := h.ancestors k (.head hij hk)

theorem enclosing {p : Option Nat} (h : ∀ j, p = some j → x.SameAround y j) (index fuel : Nat) :
    enclosing x.scopes index fuel p = enclosing y.scopes index fuel p ∧
      ∀ j ∈ enclosing x.scopes index fuel p, x.SameAround y j := by
  induction fuel generalizing p with
  | zero => exact ⟨rfl, List.forall_mem_nil _⟩
  | succ fuel ih =>
    cases p with
    | none => exact ⟨rfl, List.forall_mem_nil _⟩
    | some p =>
      have hp := h p rfl
      rw [TaintScan.enclosing, TaintScan.enclosing, ← hp.scope]
      by_cases hlt : p < index
      · rw [if_pos hlt, if_pos hlt]
        obtain ⟨heq, hall⟩ := ih (p := x.scopes[p]?.bind (·.parent)) fun j hj => by
          obtain ⟨scope, hscope, hparent⟩ := Option.bind_eq_some_iff.mp hj
          exact hp.parent ⟨scope, hscope, hparent⟩
        exact ⟨congrArg (p :: ·) heq, List.forall_mem_cons.mpr ⟨hp, hall⟩⟩
      · rw [if_neg hlt, if_neg hlt]
        exact ⟨rfl, List.forall_mem_nil _⟩

end ExtractedUnit.SameAround

namespace SourceUnit

variable {u : SourceUnit} {x y : ExtractedUnit} {registry : Registry} {options : AnalysisOptions}

/-! ## The states between scopes -/

theorem trackFrom_cons_never {scope : Scope} {rest : List Scope} {done : Array Facts} {f f' : Flow} {n : Nat}
    (h : (u.trackFrom x registry options (scope :: rest) done f ⟨.never, n⟩).1 = .ok f') :
    ∃ f₁ n₁, (u.siteIn x registry options done scope).walk scope.statements.toList
        ((u.siteIn x registry options done scope).seedParams { f with facts := {} }).2 ⟨.never, n⟩ =
          (.ok f₁, ⟨.never, n₁⟩) ∧
      ∀ more, u.trackFrom x registry options (scope :: more) done f ⟨.never, n⟩ =
        u.trackFrom x registry options more (done.push f₁.facts) f₁ ⟨.never, n₁⟩ := by
  let s := u.siteIn x registry options done scope
  obtain ⟨n₁, hleft⟩ := s.walk_never_left scope.statements.toList (s.seedParams { f with facts := {} }).2 n
  cases hwalk : (s.walk scope.statements.toList (s.seedParams { f with facts := {} }).2 ⟨.never, n⟩).1 with
  | error e =>
    rw [trackFrom_cons_error u x registry options (Prod.ext hwalk hleft)] at h
    cases h
  | ok f₁ => exact ⟨f₁, n₁, Prod.ext hwalk hleft, fun _ => trackFrom_cons_ok u x registry options (Prod.ext hwalk hleft)⟩

/-- The scopes that both units have with the same scopes around them have ended with the same facts. -/
structure DoneAlike (x y : ExtractedUnit) (done done' : Array Facts) (f g : Flow) : Prop where
  size : done'.size = done.size
  facts : ∀ j < done.size, x.SameAround y j →
    Facts.Twin (SameWay f.nodes g.nodes) (done.getD j {}) (done'.getD j {})

variable {done done' : Array Facts} {f g : Flow}

namespace DoneAlike

variable (h : DoneAlike x y done done' f g)
include h

theorem walk (registry : Registry) (options : AnalysisOptions) {scope : Scope}
    (hsame : x.SameAround y done.size) (hscope : x.scopes[done.size]? = some scope) (n m : Nat) :
    let s := u.siteIn x registry options done scope
    let t := u.siteIn y registry options done' scope
    let r := (s.walk scope.statements.toList (s.seedParams { f with facts := {} }).2 ⟨.never, n⟩).1
    let r' := (t.walk scope.statements.toList (t.seedParams { g with facts := {} }).2 ⟨.never, m⟩).1
    (∃ e, r = .error e ∧ r' = .error e) ∨
      ∃ f' g', r = .ok f' ∧ r' = .ok g' ∧ f'.Twin s t f.candidates.toList g.candidates.toList g' := by
  intro s t
  have hparent : ∀ j, scope.parent = some j → x.SameAround y j :=
    fun j hj => hsame.parent ⟨scope, hscope, hj⟩
  obtain ⟨henclosing, haround⟩ := ExtractedUnit.SameAround.enclosing hparent done.size done.size
  have hst : s.Twin t := ⟨rfl, hsame.arena.symm, rfl, rfl, rfl, rfl, rfl⟩
  have hlinked : ∀ a b, SameWay f.nodes g.nodes a b → s.Linked t { f with facts := {} } { g with facts := {} } a b :=
    fun a b hab => ⟨hab, iff_of_true (Nat.zero_le a) (Nat.zero_le b)⟩
  have hinherited : List.Forall₂ (Facts.Twin (s.Linked t { f with facts := {} } { g with facts := {} }))
      s.inherited t.inherited := by
    simp only [s, t, siteIn, h.size, ← henclosing]
    rw [List.forall₂_map_left_iff, List.forall₂_map_right_iff, List.forall₂_same]
    intro j hj
    exact (h.facts j (lt_of_mem_enclosing hj) (haround j hj)).mono hlinked
  have hstart : Flow.Twin s t f.candidates.toList g.candidates.toList { f with facts := {} } { g with facts := {} } :=
    ⟨.empty, hinherited, ⟨Nat.zero_le _, Nat.zero_le _⟩, [], by simp, by simp⟩
  exact hst.walk rfl rfl (hst.seedParams hstart).rel _ n m

theorem push {scope scope' : Scope} (hx : x.scopes[done.size]? = some scope)
    (hy : y.scopes[done.size]? = some scope') {f' g' : Flow} {n n' m m' : Nat}
    (hf : (u.siteIn x registry options done scope).walk scope.statements.toList
      ((u.siteIn x registry options done scope).seedParams { f with facts := {} }).2 ⟨.never, n⟩ =
        (.ok f', ⟨.never, n'⟩))
    (hg : (u.siteIn y registry options done' scope').walk scope'.statements.toList
      ((u.siteIn y registry options done' scope').seedParams { g with facts := {} }).2 ⟨.never, m⟩ =
        (.ok g', ⟨.never, m'⟩)) :
    DoneAlike x y (done.push f'.facts) (done'.push g'.facts) f' g' := by
  have hkept : NodesKept f.nodes f'.nodes := (Site.seedParams_kept _ { f with facts := {} }).trans (Site.walk_kept hf)
  have hkept' : NodesKept g.nodes g'.nodes := (Site.seedParams_kept _ { g with facts := {} }).trans (Site.walk_kept hg)
  refine ⟨by simp [h.size], ?_⟩
  intro j hj hsame
  rw [Array.size_push] at hj
  simp only [Array.getD_eq_getD_getElem?, Array.getElem?_push, h.size]
  by_cases hlast : j = done.size
  · subst hlast
    obtain rfl : scope = scope' := Option.some.inj (hx.symm.trans (hsame.scope.trans hy))
    rw [if_pos rfl, if_pos rfl]
    obtain ⟨e, he, -⟩ | ⟨f₁, g₁, hf₁, hg₁, htwin⟩ := h.walk registry options hsame hx n m
    · rw [hf] at he
      cases he
    · rw [hf] at hf₁
      rw [hg] at hg₁
      cases hf₁
      cases hg₁
      exact htwin.facts.mono fun _ _ hab => hab.1
  · have hold := h.facts j (by omega) hsame
    simp only [Array.getD_eq_getD_getElem?] at hold
    rw [if_neg hlast, if_neg hlast]
    exact hold.mono fun _ _ => .mono hkept hkept'

theorem trackFrom {xs ys tail tail' : List Scope} (hlength : xs.length = ys.length)
    (hx : x.scopes.toList.drop done.size = xs ++ tail) (hy : y.scopes.toList.drop done.size = ys ++ tail')
    {f' g' : Flow} {n m : Nat} (hf : (u.trackFrom x registry options xs done f ⟨.never, n⟩).1 = .ok f')
    (hg : (u.trackFrom y registry options ys done' g ⟨.never, m⟩).1 = .ok g') :
    ∃ d d' n' m', DoneAlike x y d d' f' g' ∧ d.size = done.size + xs.length ∧
      (∀ more, u.trackFrom x registry options (xs ++ more) done f ⟨.never, n⟩ =
        u.trackFrom x registry options more d f' ⟨.never, n'⟩) ∧
      ∀ more, u.trackFrom y registry options (ys ++ more) done' g ⟨.never, m⟩ =
        u.trackFrom y registry options more d' g' ⟨.never, m'⟩ := by
  induction xs generalizing ys done done' f g n m with
  | nil =>
    obtain rfl : ys = [] := List.length_eq_zero_iff.mp hlength.symm
    cases hf
    cases hg
    exact ⟨done, done', n, m, h, rfl, fun _ => rfl, fun _ => rfl⟩
  | cons scope rest ih =>
    cases ys with
    | nil => cases hlength
    | cons scope' rest' =>
      have hscope : x.scopes[done.size]? = some scope := by
        rw [← Array.getElem?_toList, ← List.head?_drop, hx]
        rfl
      have hscope' : y.scopes[done.size]? = some scope' := by
        rw [← Array.getElem?_toList, ← List.head?_drop, hy]
        rfl
      obtain ⟨f₁, n₁, hwalk, hmore⟩ := trackFrom_cons_never hf
      obtain ⟨g₁, m₁, hwalk', hmore'⟩ := trackFrom_cons_never hg
      rw [hmore] at hf
      rw [hmore'] at hg
      have hnext := h.push hscope hscope' hwalk hwalk'
      have hdrop {xs rest tail : List Scope} {scope : Scope} (h : xs.drop done.size = scope :: rest ++ tail) :
          xs.drop (done.push f₁.facts).size = rest ++ tail := by
        rw [Array.size_push, ← List.tail_drop, h]
        rfl
      obtain ⟨d, d', n', m', hd, hsize, hx', hy'⟩ := ih hnext (Nat.succ.inj hlength) (hdrop hx) (hdrop hy) hf hg
      refine ⟨d, d', n', m', hd, ?_, ?_, ?_⟩
      · rw [hsize, Array.size_push, List.length_cons]
        omega
      · intro more
        rw [List.cons_append, hmore, hx']
      · intro more
        rw [List.cons_append, hmore', hy']

end DoneAlike

/-! ## What is emitted in a scope -/

variable (u x registry options) in
def passTo (i : Nat) : Except AnalysisError Flow :=
  (u.trackFrom x registry options (x.scopes.toList.take i) #[] {} ⟨.never, 0⟩).1

variable (u x registry options) in
/-- The candidates that a pass emits while it walks a scope. -/
def emittedIn (i : Nat) : Except AnalysisError (List Candidate) := do
  let before ← u.passTo x registry options i
  let after ← u.passTo x registry options (i + 1)
  return after.candidates.toList.drop before.candidates.size

theorem passTo_succ {scope : Scope} {p : Progress} (hscope : x.scopes[done.size]? = some scope)
    (hmore : ∀ more, u.trackFrom x registry options (x.scopes.toList.take done.size ++ more) #[] {} ⟨.never, 0⟩ =
      u.trackFrom x registry options more done f p) :
    u.passTo x registry options (done.size + 1) =
      ((u.siteIn x registry options done scope).walk scope.statements.toList
        ((u.siteIn x registry options done scope).seedParams { f with facts := {} }).2 p).1 := by
  rw [passTo, List.take_add_one, Array.getElem?_toList, hscope, Option.toList_some, hmore]
  cases hwalk : (u.siteIn x registry options done scope).walk scope.statements.toList
    ((u.siteIn x registry options done scope).seedParams { f with facts := {} }).2 p with
  | mk r p' =>
    cases r with
    | error e => rw [trackFrom_cons_error u x registry options hwalk]
    | ok f' =>
      rw [trackFrom_cons_ok u x registry options hwalk]
      rfl

theorem emittedIn_of_none {i : Nat} (h : u.passTo x registry options i = .ok f) (hi : x.scopes[i]? = none) :
    u.emittedIn x registry options i = .ok [] := by
  have hnext : u.passTo x registry options (i + 1) = .ok f := by
    rw [← h, passTo, passTo, List.take_add_one, Array.getElem?_toList, hi, Option.toList_none, List.append_nil]
  simp [emittedIn, h, hnext, bind, Except.bind, pure, Except.pure]

/-- Two passes that come to a scope that both units have with the same scopes around it emit the same there. -/
theorem emittedIn_eq {i : Nat} (hsame : x.SameAround y i) (hf : u.passTo x registry options i = .ok f)
    (hg : u.passTo y registry options i = .ok g) :
    u.emittedIn x registry options i = u.emittedIn y registry options i := by
  cases hscope : x.scopes[i]? with
  | none => rw [emittedIn_of_none hf hscope, emittedIn_of_none hg (hsame.scope.symm.trans hscope)]
  | some scope =>
    have hscope' : y.scopes[i]? = some scope := hsame.scope.symm.trans hscope
    have hlength {scopes : Array Scope} (h : scopes[i]? = some scope) : (scopes.toList.take i).length = i := by
      have hlt := (Array.getElem?_eq_some_iff.mp h).1
      rw [List.length_take, Array.length_toList]
      omega
    have hstart : DoneAlike x y #[] #[] {} {} := ⟨rfl, fun j hj => absurd hj (Nat.not_lt_zero j)⟩
    obtain ⟨d, d', n, m, hd, hsize, hx, hy⟩ := hstart.trackFrom
      ((hlength hscope).trans (hlength hscope').symm) (List.take_append_drop i _).symm
      (List.take_append_drop i _).symm hf hg
    rw [hlength hscope] at hsize
    obtain rfl : i = d.size := by simpa using hsize.symm
    have hnext := passTo_succ hscope hx
    have hnext' : u.passTo y registry options (d'.size + 1) = _ :=
      passTo_succ (hd.size ▸ hscope') (hd.size ▸ hy)
    rw [hd.size] at hnext'
    obtain ⟨e, he, he'⟩ | ⟨f', g', hf', hg', htwin⟩ := hd.walk registry options hsame hscope n m
    · rw [he] at hnext
      rw [he'] at hnext'
      simp [emittedIn, hf, hg, hnext, hnext', bind, Except.bind]
    · rw [hf'] at hnext
      rw [hg'] at hnext'
      obtain ⟨emitted, hc, hc'⟩ := htwin.candidates
      simp [emittedIn, hf, hg, hnext, hnext', bind, Except.bind, pure, Except.pure, hc, hc']

theorem passTo_prefix {i : Nat} {f' : Flow} (hf : u.passTo x registry options i = .ok f)
    (hf' : u.passTo x registry options (i + 1) = .ok f') : f.candidates.toList <+: f'.candidates.toList := by
  cases hscope : x.scopes[i]? with
  | none =>
    rw [passTo, List.take_add_one, Array.getElem?_toList, hscope, Option.toList_none, List.append_nil] at hf'
    cases hf.symm.trans hf'
    exact List.prefix_rfl
  | some scope =>
    have hlt := (Array.getElem?_eq_some_iff.mp hscope).1
    have hstart : DoneAlike x x #[] #[] {} {} := ⟨rfl, fun j hj => absurd hj (Nat.not_lt_zero j)⟩
    obtain ⟨d, -, n, -, -, hsize, hx, -⟩ := hstart.trackFrom rfl (List.take_append_drop i _).symm
      (List.take_append_drop i _).symm hf hf
    obtain rfl : i = d.size := by
      simp only [List.length_take, List.drop_zero, Array.length_toList, Array.size_empty] at hsize
      omega
    rw [passTo_succ hscope hx] at hf'
    have hprefix := Site.walk_candidates (Prod.ext hf' rfl)
    rwa [Site.seedParams_candidates] at hprefix

theorem track_eq_emitted (hx : x.Recorded) :
    (∀ i, ∃ f emitted, u.passTo x registry options i = .ok f ∧ u.emittedIn x registry options i = .ok emitted) ∧
      u.track x registry options .never =
        (.ok ((List.range x.scopes.size).flatMap fun i => (u.emittedIn x registry options i).toOption.getD []),
          .never) := by
  have hok (i : Nat) : ∃ f, u.passTo x registry options i = .ok f := by
    obtain ⟨f, n, h⟩ := u.trackFrom_ok registry options hx
      (fun scope hscope => Array.mem_toList_iff.mp (List.mem_of_mem_take (i := i) hscope)) #[] {} 0
    exact ⟨f, congrArg Prod.fst h⟩
  have hemitted (i : Nat) : ∃ f f', u.passTo x registry options i = .ok f ∧
      u.passTo x registry options (i + 1) = .ok f' ∧
      ∃ emitted, f'.candidates.toList = f.candidates.toList ++ emitted ∧
        u.emittedIn x registry options i = .ok emitted := by
    obtain ⟨f, hf⟩ := hok i
    obtain ⟨f', hf'⟩ := hok (i + 1)
    obtain ⟨emitted, happend⟩ := passTo_prefix hf hf'
    refine ⟨f, f', hf, hf', emitted, happend.symm, ?_⟩
    simp [emittedIn, hf, hf', bind, Except.bind, pure, Except.pure, ← happend]
  constructor
  · intro i
    obtain ⟨f, _, hf, _, emitted, _, h⟩ := hemitted i
    exact ⟨f, emitted, hf, h⟩
  · have hall (i : Nat) : ∃ f, u.passTo x registry options i = .ok f ∧ f.candidates.toList =
        (List.range i).flatMap fun i => (u.emittedIn x registry options i).toOption.getD [] := by
      induction i with
      | zero => exact ⟨{}, rfl, rfl⟩
      | succ i ih =>
        obtain ⟨f, hf, hcandidates⟩ := ih
        obtain ⟨f₀, f', hf₀, hf', emitted, happend, h⟩ := hemitted i
        cases hf.symm.trans hf₀
        refine ⟨f', hf', ?_⟩
        rw [happend, hcandidates, List.range_succ, List.flatMap_append, List.flatMap_singleton, h]
        rfl
    obtain ⟨f, hf, hcandidates⟩ := hall x.scopes.size
    obtain ⟨f', n, htrack⟩ := u.trackFrom_ok registry options hx
      (fun scope hscope => Array.mem_toList_iff.mp hscope) #[] {} 0
    rw [passTo, ← Array.length_toList, List.take_length, htrack] at hf
    cases hf
    rw [track, htrack, ← hcandidates]

end SourceUnit

/-! ## What a scope sees -/

namespace Site

/-- What a scope sees of a path in the scopes around it. -/
def seen? (s : Site) (key : String) : Option Taint :=
  s.inherited.findSome? fun outer => outer[key]? >>= Taint.exported?

theorem labels_of_seen? {s : Site} {key : String} {t : Taint} (h : s.seen? key = some t) : t.labels = .of .secret := by
  obtain ⟨outer, -, hexported⟩ := List.exists_of_findSome?_eq_some h
  obtain ⟨t', -, hexported⟩ := Option.bind_eq_some_iff.mp hexported
  unfold Taint.exported? at hexported
  split at hexported
  · cases hexported
    rfl
  · cases hexported

theorem fact_of_untrusted {s : Site} {facts : Facts} {path : String} {t : Taint}
    (h : s.lookup? facts path = some t) (huntrusted : t.labels.untrusted = true) :
    ∃ key ∈ pathHeads (factKey path), facts[key]? = some t := by
  obtain ⟨key, hkey, hknown⟩ := List.exists_of_findSome?_eq_some h
  refine ⟨key, hkey, ?_⟩
  cases hfact : facts[key]? with
  | some own =>
    rw [hfact] at hknown
    exact hknown
  | none =>
    rw [hfact] at hknown
    have hseen : s.seen? key = some t := hknown
    rw [labels_of_seen? hseen] at huntrusted
    cases huntrusted

end Site

namespace MaskedCall

def unit : SourceUnit :=
  { id := "a.js", language := .javascript
    content :=
      (Text.Utf8.encode "function f() { go(); run(ask()) }\nfunction g() { run(ask()) }\n").toArray }

def registry : Registry :=
  .ofOrdered
    [{ id := "ask", name := "ask", matcher := .source { callees := [⟨"ask", false⟩] } },
      { id := "run", name := "run", category := some .codeInjection, message := "m", cweId := some "CWE-94"
        matcher := .sink { callees := [⟨"run", false⟩] } }]

def arena : ExprArena :=
  ⟨#[⟨.call "go" none [] false, ⟨15, 19⟩⟩, ⟨.call "ask" none [] false, ⟨25, 30⟩⟩,
    ⟨.call "run" none [1] false, ⟨21, 31⟩⟩, ⟨.call "ask" none [] false, ⟨53, 58⟩⟩,
    ⟨.call "run" none [3] false, ⟨49, 59⟩⟩], #[1, 1, 2, 1, 2]⟩

def function (name : String) (header : Span) (statements : Array Statement) : Scope :=
  { kind := .function, name, parent := some 0, parentKind := some .module, headerSpan := header, statements }

/-- The unit with a second statement of its first function. -/
def extracted (statement : Statement) (stats : ExtractStats) : ExtractedUnit :=
  { arena, stats
    scopes := #[{ kind := .module, name := "", headerSpan := ⟨0, 0⟩ },
      function "f" ⟨0, 14⟩ #[{ kind := .call, operands := [0], span := ⟨15, 19⟩, controlTag := 0 }, statement],
      function "g" ⟨34, 48⟩ #[{ kind := .call, operands := [4], span := ⟨49, 59⟩, controlTag := 0 }]] }

def full : ExtractedUnit :=
  extracted { kind := .call, operands := [2], span := ⟨21, 31⟩, controlTag := 0 } ⟨3, 0, 0, 3⟩

/-- With a bound of one statement the second one of a function is masked. -/
def masked : ExtractedUnit :=
  extracted { kind := .unparsed, operands := [], span := ⟨21, 31⟩, controlTag := 0 } ⟨2, 1, 0, 3⟩

theorem extract_full : unit.extract 2 .never = (.ok full, .never) := by
  decide +kernel

theorem extract_masked : unit.extract 1 .never = (.ok masked, .never) := by
  decide +kernel

theorem sameAround : full.SameAround masked 2 where
  arena := rfl
  scope := rfl
  ancestors j hj := by
    -- The module is the only scope around a function.
    have hzero : j = 0 := by
      induction hj with
      | single h =>
        obtain ⟨scope, hscope, hparent⟩ := h
        cases hscope
        exact (Option.some.inj hparent).symm
      | tail _ h ih =>
        subst ih
        obtain ⟨scope, hscope, hparent⟩ := h
        cases hscope
        cases hparent
    rw [hzero]
    rfl

end MaskedCall
end TaintScan
