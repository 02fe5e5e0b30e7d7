import TaintScan.Proofs.Extract.Ground

/-! # Replays side by side

`Walk.Twin` compares two steps that replay bodies in different ways: they do the same from every state
in which the bodies that wait are settled, that is, one behind the other or irregular. It also says what
becomes of the annotations, turn by turn, and of the state at the end.
-/
namespace TaintScan

/-! ## Steps that differ in how bodies are replayed -/

namespace Walk

/-- A run ends well and does not pass an index, if one is given. -/
def Admits (stop : Option (Nat × Nat)) {α : Type} (x : Except ExtractError α × Builder) : Prop :=
  ∀ i ∈ stop, (∃ a, x.1 = .ok a) ∧ x.2.pos ≤ i.2

/-- From every state that satisfies a condition a step ends in one that satisfies another. Every turn in it is
one that the whole unit allows and starts when nothing waits, and the annotations before the first turn stand
in a relation to those at the start. A second step does the same under every countdown, at least if the first
one does not pass a given index. -/
def Twin (whole : View) (stop : Option (Nat × Nat)) (v : View) (I : Builder → Prop) (S : Notes → Notes → Prop) {α : Type}
    (J : α → Builder → Prop) (p q : Walk α) : Prop :=
  ∀ b, I b → ∃ states x, Trace (p v) b states x ∧ Legs whole (S b.notes) states x.2 ∧
    (∀ a, x.1 = .ok a → J a x.2) ∧ (∀ s ∈ states, s.Idle whole) ∧
    (Admits stop x → ∀ t, p v (b.timed t) = q v (b.timed t))

/-- Two steps that do the same and leave no body to be replayed. -/
abbrev Ends (G : Ground) (v : View) (I : Builder → Prop) (S : Notes → Notes → Prop) {α : Type} (p q : Walk α) : Prop :=
  Twin G.whole G.stop v I S (fun _ => G.Clear) p q

abbrev Completes (G : Ground) (v : View) (I : Builder → Prop) (S : Notes → Notes → Prop) {α : Type} (p q : Walk α) : Prop :=
  Twin G.whole G.stop v I S (fun _ => G.Ended) p q

abbrev Runs (G : Ground) (v : View) (I : Builder → Prop) (S : Notes → Notes → Prop) {α : Type} (p : Walk α) : Prop :=
  Ends G v I S p p

namespace Twin

variable {whole v : View} {stop : Option (Nat × Nat)} {I M : Builder → Prop} {S R : Notes → Notes → Prop} {α β : Type}
variable {J L : α → Builder → Prop} {K : β → Builder → Prop} {p q : Walk α} {f g : α → Walk β}

theorem of (h : Twin whole stop v I S J p q) (hI : ∀ b, M b → I b) : Twin whole stop v M S J p q :=
  fun b hb => h b (hI b hb)

theorem given {P : Prop} (hI : ∀ b, I b → P) (h : P → Twin whole stop v I S J p q) : Twin whole stop v I S J p q :=
  fun b hb => h (hI b hb) b hb

theorem pointwise (h : ∀ b, I b → Twin whole stop v (· = b) S J p q) : Twin whole stop v I S J p q :=
  fun b hb => h b hb b rfl

theorem each {M : Nat → Builder → Prop} (h : ∀ j, Twin whole stop v (M j) S J p q) :
    Twin whole stop v (fun b => ∃ j, M j b) S J p q := by
  rintro b ⟨j, hb⟩
  exact h j b hb

theorem mono (h : Twin whole stop v I S J p q) (hS : ∀ b, I b → ∀ m, S b.notes m → R b.notes m) :
    Twin whole stop v I R J p q := by
  intro b hb
  obtain ⟨states, x, htrace, hlegs, hrest⟩ := h b hb
  exact ⟨states, x, htrace, hlegs.mono (hS b hb), hrest⟩

theorem imp (h : Twin whole stop v I S J p q) (hJ : ∀ a b, J a b → L a b) : Twin whole stop v I S L p q := by
  intro b hb
  obtain ⟨states, x, htrace, hlegs, hx, hrest⟩ := h b hb
  exact ⟨states, x, htrace, hlegs, fun a ha => hJ a _ (hx a ha), hrest⟩

theorem alone (h : Twin whole stop v I S J p q) : Twin whole stop v I S J p p := by
  intro b hb
  obtain ⟨states, x, htrace, hlegs, hx, hidle, _⟩ := h b hb
  exact ⟨states, x, htrace, hlegs, hx, hidle, fun _ _ => rfl⟩

theorem same (h : Twin whole none v I S J p q) (b : Builder) (hb : I b) (t : Countdown) :
    p v (b.timed t) = q v (b.timed t) := by
  obtain ⟨_, _, _, _, _, _, heq⟩ := h b hb
  exact heq (fun i hi => absurd hi (Option.not_mem_none i)) t

theorem quiet (h : Twin whole stop v I Eq J p q) (hS : ∀ l, S l l) : Twin whole stop v I S J p q :=
  h.mono fun b _ _ hm => hm ▸ hS b.notes

theorem calm (h : ∀ b, I b → ∃ x : Except ExtractError α × Builder, (∀ t, p v (b.timed t) = (x.1, x.2.timed t)) ∧
    S b.notes x.2.notes ∧ ∀ a, x.1 = .ok a → J a x.2) : Twin whole stop v I S J p p := by
  intro b hb
  obtain ⟨x, hrun, hS, hJ⟩ := h b hb
  exact ⟨[], x, .of_calm hrun, hS, hJ, List.forall_mem_nil _, fun _ _ => rfl⟩

theorem pure {a : α} (h : ∀ b, I b → J a b) : Twin whole stop v I Eq J (pure a) (pure a) := by
  refine calm fun b hb => ⟨(.ok a, b), fun _ => rfl, rfl, fun a' ha => ?_⟩
  cases ha
  exact h b hb

theorem bindOf (hp : Twin whole stop v I S J p q) (hf : ∀ a, Twin whole stop v (J a) Eq K (f a) (g a))
    (hback : p = q ∨ ∀ a c, J a c → ∀ a' d, K a' d → ∀ i ∈ stop, d.pos ≤ i.2 → c.pos ≤ i.2) :
    Twin whole stop v I S K (p >>= f) (q >>= g) := by
  intro b hb
  obtain ⟨states, ⟨r, c⟩, htrace, hlegs, hJ, hidle, heq⟩ := hp b hb
  cases r with
  | error e =>
    refine ⟨states, _, htrace.bind_error, hlegs, (fun _ h => nomatch h), hidle, fun hadmits t => ?_⟩
    rw [bind_apply, bind_apply, ← heq fun i hi => (hadmits i hi).1.elim fun _ h => nomatch h]
    obtain ⟨_, _, hrun⟩ | ⟨_, hrun⟩ := htrace.under t
    · rw [hrun]
      rfl
    · rw [hrun]
      rfl
  | ok a =>
    obtain ⟨later, x, htrace', hlegs', hK, hidle', heq'⟩ := hf a c (hJ a rfl)
    refine ⟨states ++ later, x, htrace.bind_ok htrace', hlegs.append hlegs', hK,
      List.forall_mem_append.mpr ⟨hidle, hidle'⟩, fun hadmits t => ?_⟩
    have heq : p v (b.timed t) = q v (b.timed t) := by
      rcases hback with rfl | hback
      · rfl
      · refine heq (fun i hi => ⟨⟨a, rfl⟩, ?_⟩) t
        obtain ⟨⟨d, hd⟩, hpos⟩ := hadmits i hi
        exact hback a c (hJ a rfl) d _ (hK d hd) i hi hpos
    rw [bind_apply, bind_apply, ← heq]
    obtain ⟨_, _, hrun⟩ | ⟨t', hrun⟩ := htrace.under t
    · rw [hrun]
      rfl
    · rw [hrun]
      exact heq' hadmits t'

theorem bind (hp : Twin whole stop v I S J p p) (hf : ∀ a, Twin whole stop v (J a) Eq K (f a) (g a)) :
    Twin whole stop v I S K (p >>= f) (p >>= g) := bindOf hp hf (.inl rfl)

theorem chain (hstop : stop = none) (hp : Twin whole stop v I S J p q)
    (hf : ∀ a, Twin whole stop v (J a) Eq K (f a) (g a)) : Twin whole stop v I S K (p >>= f) (q >>= g) :=
  bindOf hp hf (.inr fun _ _ _ _ _ _ i hi => absurd (hstop ▸ hi) (Option.not_mem_none i))

theorem follow {i : Nat} (hp : Twin whole stop v I S J p q) (hf : ∀ a, Twin whole stop v (J a) Eq K (f a) (g a))
    (hJ : ∀ a c, J a c → c.pos ≤ i) (hK : ∀ a d, K a d → i ≤ d.pos) :
    Twin whole stop v I S K (p >>= f) (q >>= g) :=
  bindOf hp hf (.inr fun a c hc a' d hd _ _ hle => Nat.le_trans (hJ a c hc) (Nat.le_trans (hK a' d hd) hle))

theorem first (hp : ∀ b, I b → ∃ a c, J a c ∧ c.notes = b.notes ∧ ∀ t, p v (b.timed t) = (.ok a, c.timed t))
    (h : ∀ a, Twin whole stop v (J a) S K (f a) (g a)) : Twin whole stop v I S K (p >>= f) (p >>= g) := by
  intro b hb
  obtain ⟨a, c, hc, hnotes, hrun⟩ := hp b hb
  obtain ⟨states, x, htrace, hlegs, hK, hidle, heq⟩ := h a c hc
  refine ⟨states, x, (Trace.of_calm (x := (.ok a, c)) hrun).bind_ok htrace, hnotes ▸ hlegs, hK, hidle,
    fun hadmits t => ?_⟩
  rw [bind_apply, bind_apply, hrun]
  exact heq hadmits t

theorem ite {c : Prop} [Decidable c] {p' q' : Walk α} (ht : c → Twin whole stop v I S J p q)
    (he : ¬c → Twin whole stop v I S J p' q') : Twin whole stop v I S J (if c then p else p') (if c then q else q') := by
  split
  · exact ht ‹_›
  · exact he ‹_›

theorem choose {c : Prop} [Decidable c] {p' q' : Walk α} {x y : Option (Walk α)} (ht : c → Twin whole stop v I S J p q)
    (he : ¬c → Twin whole stop v I S J (x.getD p') (y.getD q')) :
    Twin whole stop v I S J ((if c then some p else x).getD p') ((if c then some q else y).getD q') := by
  rw [apply_ite (Option.getD · p'), apply_ite (Option.getD · q')]
  exact ite ht he

theorem branch {c : Prop} [Decidable c] {p' q' : Walk α} (hq : Twin whole stop v I S J q q')
    (hp : Twin whole stop v I S J q q' → Twin whole stop v I S J p p') :
    Twin whole stop v I S J (if c then p else q) (if c then p' else q') :=
  ite (fun _ => hp hq) fun _ => hq

theorem view {f g : View → Walk β} (h : Twin whole stop v I S K (f v) (g v)) :
    Twin whole stop v I S K (Walk.view >>= f) (Walk.view >>= g) := h

theorem within {change : View → View} (h : Twin whole stop (change v) I S J p q) :
    Twin whole stop v I S J (Walk.within change p) (Walk.within change q) := h

theorem look {φ : Builder → α} (hφ : ∀ b t, φ (b.timed t) = φ b)
    (h : ∀ b, I b → Twin whole stop v I S K (f (φ b)) (g (φ b))) :
    Twin whole stop v I S K (Walk.look φ >>= f) (Walk.look φ >>= g) := by
  refine first (J := fun a c => I c ∧ φ c = a) (fun b hb => ⟨φ b, b, ⟨hb, rfl⟩, rfl, fun t => ?_⟩) ?_
  · unfold Walk.look
    rw [hφ]
  · rintro _ b ⟨hb, rfl⟩
    exact h b hb b hb

theorem ask {φ : View → Nat → α} (h : ∀ x, Twin whole stop v I S K (f x) (g x)) :
    Twin whole stop v I S K (Walk.here φ >>= f) (Walk.here φ >>= g) :=
  first (fun b hb => ⟨φ v b.pos, b, hb, rfl, fun _ => rfl⟩) h

theorem here {i : Nat} {φ : View → Nat → α} (hI : ∀ b, I b → b.pos = i)
    (h : Twin whole stop v I S K (f (φ v i)) (g (φ v i))) :
    Twin whole stop v I S K (Walk.here φ >>= f) (Walk.here φ >>= g) := by
  refine first (J := fun a c => I c ∧ φ v i = a) (fun b hb => ⟨φ v b.pos, b, ⟨hb, ?_⟩, rfl, fun _ => rfl⟩) ?_
  · rw [hI b hb]
  · rintro _ b ⟨hb, rfl⟩
    exact h b hb

theorem pos {i : Nat} {f g : Nat → Walk β} (hI : ∀ b, I b → b.pos = i) (h : Twin whole stop v I S K (f i) (g i)) :
    Twin whole stop v I S K (Walk.pos >>= f) (Walk.pos >>= g) :=
  here (φ := fun _ i => i) hI h

theorem act {φ : View → Builder → Builder} {f g : Unit → Walk β} (hφ : ∀ b, I b → M (φ v b))
    (ht : ∀ b t, φ v (b.timed t) = (φ v b).timed t) (hn : ∀ b, (φ v b).notes = b.notes)
    (h : Twin whole stop v M S K (f ()) (g ())) : Twin whole stop v I S K (Walk.act φ >>= f) (Walk.act φ >>= g) :=
  first (fun b hb => ⟨(), φ v b, hφ b hb, hn b, fun t => congrArg (Prod.mk _) (ht b t)⟩) fun _ => h

theorem lastly {φ : View → Builder → Builder} (hφ : ∀ b, I b → M (φ v b))
    (ht : ∀ b t, φ v (b.timed t) = (φ v b).timed t) (hS : ∀ b, S b.notes (φ v b).notes) :
    Twin whole stop v I S (fun _ => M) (Walk.act φ) (Walk.act φ) :=
  calm fun b hb => ⟨(.ok (), φ v b), fun t => congrArg (Prod.mk _) (ht b t), hS b, fun _ _ => hφ b hb⟩

theorem keep {G : Ground} {φ : View → Builder → Builder} {f g : Unit → Walk β}
    (hI : ∀ {φ : Builder → Builder} {b : Builder}, I b → G.Calm φ b → I (φ b)) (hφ : ∀ b, G.Calm (φ v) b)
    (h : Twin whole stop v I S K (f ()) (g ())) : Twin whole stop v I S K (Walk.act φ >>= f) (Walk.act φ >>= g) :=
  act (fun b hb => hI hb (hφ b)) (fun b => (hφ b).timed) (fun b => (hφ b).keeps.notes) h

theorem seek {j : Nat} {f g : Unit → Walk β} (hj : ∀ b, I b → M (b.seek j)) (h : Twin whole stop v M S K (f ()) (g ())) :
    Twin whole stop v I S K (Walk.seek j >>= f) (Walk.seek j >>= g) :=
  act hj (fun _ _ => rfl) (fun _ => rfl) h

theorem ofExcept (x : Except UnknownExpr α) :
    Twin whole stop v I Eq (fun _ => I) (Walk.ofExcept x) (Walk.ofExcept x) :=
  calm fun b hb => ⟨(x.mapError .unknownExpr, b), fun _ => rfl, rfl, fun _ _ => hb⟩

theorem checkpoint {f g : Unit → Walk β} (hI : ∀ b, I b → b.Idle whole)
    (h : ∀ b, I b → Twin whole stop v (· = { b with turns := b.turns + 1 }) (fun _ => whole.Turn b) K (f ()) (g ())) :
    Twin whole stop v I Eq K (Walk.checkpoint >>= f) (Walk.checkpoint >>= g) := by
  intro b hb
  obtain ⟨states, x, htrace, hlegs, hK, hidle, heq⟩ := h b hb _ rfl
  have hturn : Trace (Walk.checkpoint v) b [b] (.ok (), { b with turns := b.turns + 1 }) := by
    constructor
    · intro n s hs
      cases n with
      | zero =>
        cases hs
        exact ⟨_, rfl⟩
      | succ n => cases hs
    · rintro ⟨_ | n⟩
      · rfl
      · rfl
  refine ⟨b :: states, x, hturn.bind_ok htrace, ⟨rfl, hlegs⟩, hK, List.forall_mem_cons.mpr ⟨hI b hb, hidle⟩,
    fun hadmits t => ?_⟩
  rcases t with ⟨_ | _ | n⟩
  · exact heq hadmits .never
  · rfl
  · exact heq hadmits (.after n)

/-! ## Conditions on bodies -/

variable {G : Ground}

theorem move {j : Nat} (hj : G.start ≤ j) {f g : Unit → Walk β} (h : Twin whole stop v G.Clear S K (f ()) (g ())) :
    Twin whole stop v G.Clear S K (Walk.seek j >>= f) (Walk.seek j >>= g) :=
  seek (fun _ hb => hb.seek hj) h

theorem raise (j : Nat) {f g : Unit → Walk β} (h : Twin whole stop v G.Clear S K (f ()) (g ())) :
    Twin whole stop v G.Clear S K (Walk.act (fun _ b => b.seek (max b.pos j)) >>= f)
      (Walk.act (fun _ b => b.seek (max b.pos j)) >>= g) :=
  act (fun _ hb => hb.seek (Nat.le_trans hb.le (Nat.le_max_left _ _))) (fun _ _ => rfl) (fun _ => rfl) h

theorem eatOp {op : String} {f g : Bool → Walk β} (h : ∀ found, Twin whole stop v G.Clear S K (f found) (g found)) :
    Twin whole stop v G.Clear S K (Walk.eatOp op >>= f) (Walk.eatOp op >>= g) := by
  refine first (fun b hb => ?_) h
  have hpos (t : Countdown) : (b.timed t).pos = b.pos := rfl
  unfold Walk.eatOp
  by_cases hop : v.isOpAt b.pos op = true
  · refine ⟨true, b.seek (b.pos + 1), hb.seek (Nat.le_succ_of_le hb.le), rfl, fun t => ?_⟩
    rw [hpos, if_pos hop]
    rfl
  · refine ⟨false, b, hb, rfl, fun t => ?_⟩
    rw [hpos, if_neg hop]

theorem skip {f g : Bool → Walk β} (hI : ∀ b j, I b → b.pos ≤ j → I (b.seek j))
    (h : ∀ opens, Twin whole stop v I S K (f opens) (g opens)) :
    Twin whole stop v I S K (Walk.skipStatement >>= f) (Walk.skipStatement >>= g) :=
  first (fun b hb => ⟨(v.statementEnd b.pos).1, b.seek (v.statementEnd b.pos).2,
    hI b _ hb (v.le_statementEnd b.pos), rfl, fun _ => rfl⟩) h

variable {i last : Nat}

theorem parsed {A : Nat → α → Prop} {failure : Parse.Failure} {p : Parse α} {b : Builder}
    (hp : ∀ n, Parse.Tidy G.whole v failure i i n A p) (hb : G.Waits i b) :
    i ≤ (p v b.draft).2.pos ∧ G.Waits (p v b.draft).2.pos { b with draft := (p v b.draft).2 } := by
  have hrun := hp 0 b.draft hb.pos (Nat.zero_le _)
  have hle : G.start ≤ i := hb.pos ▸ hb.le
  refine ⟨hrun.ahead.le, ⟨Nat.le_trans hle hrun.ahead.le, hrun.grown.depth.trans hb.depth, hb.stands⟩, rfl, ?_, ?_⟩
  · obtain ⟨added, hadded, hapart, _⟩ := hrun.bodies
    unfold Builder.Settles
    dsimp only
    rw [hadded]
    rcases hb.settles with hirr | hbefore
    · exact .inl (hirr.mono hrun.grown.top (List.subset_append_left _ _))
    · rcases hapart with hirr | hapart
      · exact .inl (hirr.mono (Nat.le_refl _) (List.subset_append_right _ _))
      · exact .inr (hbefore.append hapart hle hrun.ahead.le)
  · exact fun a ha => (hrun.inside a ha).elim (hb.inside a) fun h => Nat.lt_of_le_of_lt hle h.1

theorem parse {A : Nat → α → Prop} {failure : Parse.Failure} {p : Parse α} {f g : Option α → Walk β}
    (hp : ∀ n, Parse.Tidy G.whole v failure i i n A p)
    (h : ∀ r j, i ≤ j → Twin whole stop v (G.Waits j) S K (f r) (g r)) :
    Twin whole stop v (G.Waits i) S K (Walk.parse p >>= f) (Walk.parse p >>= g) := by
  refine first (J := fun _ c => ∃ j, i ≤ j ∧ G.Waits j c) (fun b hb => ?_) ?_
  · exact ⟨(p v b.draft).1, { b with draft := (p v b.draft).2 }, ⟨_, parsed hp hb⟩, rfl, fun _ => rfl⟩
  · rintro r b ⟨j, hj, hb⟩
    exact h r j hj b hb

theorem parseHeads {A : Nat → α → Prop} {failure : Parse.Failure} {p : Parse α} {f g : Option α → Walk β}
    (hp : ∀ n, Parse.Tidy G.whole v failure i i n A p) (hends : Parse.EndsBefore last v p)
    (h : ∀ r d, i ≤ (p v d).2.pos → Twin whole stop v (G.Heads last (p v d).2.pos) S K (f r) (g r)) :
    Twin whole stop v (G.Heads last i) S K (Walk.parse p >>= f) (Walk.parse p >>= g) := by
  refine first (J := fun _ c => ∃ d, i ≤ (p v d).2.pos ∧ G.Heads last (p v d).2.pos c) (fun b hb => ?_) ?_
  · obtain ⟨hle, hwaits⟩ := parsed hp hb.toWaits
    refine ⟨(p v b.draft).1, { b with draft := (p v b.draft).2 }, ⟨b.draft, hle, hwaits, ?_⟩, rfl, fun _ => rfl⟩
    exact fun a ha => (hends b.draft a ha).elim (hb.ends a) id
  · rintro r b ⟨d, hd, hb⟩
    exact h r d hd b hb

theorem record {A : Nat → α → Prop} {p : Parse α} {f g : Option α → Walk β} (hp : ∀ n, Parse.Still v n A p)
    (h : ∀ a, Twin whole stop v (G.Waits i) S K (f (some a)) (g (some a))) :
    Twin whole stop v (G.Waits i) S K (Walk.parse p >>= f) (Walk.parse p >>= g) := by
  refine first (J := fun r c => r.isSome = true ∧ G.Waits i c) (fun b hb => ?_) ?_
  · obtain ⟨a, e, hrun, hpos, hdef, hgrown, _⟩ := hp 0 b.draft (Nat.zero_le _)
    refine ⟨some a, { b with draft := e }, ⟨rfl, ⟨hb.le.trans_eq hpos.symm, hgrown.depth.trans hb.depth, hb.stands⟩,
      hpos.trans hb.pos, ?_, hdef.symm ▸ hb.inside⟩, rfl, fun t => ?_⟩
    · unfold Builder.Settles
      dsimp only
      rw [hdef]
      exact hb.settles.imp (fun hirr => hirr.mono hgrown.top fun _ h => h) id
    · change (Except.ok (p v b.draft).1, { b.timed t with draft := (p v b.draft).2 }) = _
      rw [hrun]
      rfl
  · rintro (_ | a) b ⟨hr, hb⟩
    · cases hr
    · exact h a b hb

theorem parseList {failure : Parse.Failure} {γ : Type} {A : Nat → List γ → Prop} {p : Parse (List γ)}
    (hp : ∀ n, Parse.Tidy G.whole v failure i i n A p) :
    Twin whole stop v (G.Waits i) Eq (fun _ => G.Reads i) (Walk.parseList p) (Walk.parseList p) :=
  parse hp fun _ j hj => .pure fun _ hb => ⟨j, hj, hb⟩

theorem reads (h : ∀ j, i ≤ j → Twin whole stop v (G.Waits j) S J p q) : Twin whole stop v (G.Reads i) S J p q :=
  each fun j => .given (fun _ hb => hb.1) fun hj => (h j hj).of fun _ hb => hb.2

theorem advance (k : Nat) {f g : Unit → Walk β} (h : Twin whole stop v (G.Waits (i + k)) S K (f ()) (g ())) :
    Twin whole stop v (G.Waits i) S K (Walk.advance k >>= f) (Walk.advance k >>= g) :=
  act (fun _ hb => hb.advance k) (fun _ _ => rfl) (fun _ => rfl) h

theorem step (k : Nat) {f g : Unit → Walk β} (h : Twin whole stop v (G.Rests (i + k)) S K (f ()) (g ())) :
    Twin whole stop v (G.Rests i) S K (Walk.advance k >>= f) (Walk.advance k >>= g) :=
  act (fun _ hb => hb.advance k) (fun _ _ => rfl) (fun _ => rfl) h

theorem alloc (kind : ExprKind) (first : Nat) :
    Twin whole stop v (G.Waits i) Eq (fun _ => G.Waits i) (Walk.alloc kind first) (Walk.alloc kind first) := by
  refine calm fun b hb => ⟨(.ok (b.draft.arena.alloc kind (v.spanSince first b.pos)).1,
    { b with draft.arena := (b.draft.arena.alloc kind (v.spanSince first b.pos)).2 }), fun _ => rfl, rfl, fun _ _ => ?_⟩
  refine ⟨⟨hb.le, hb.depth, hb.stands⟩, hb.pos, hb.settles.imp (fun hirr => hirr.mono ?_ fun _ h => h) id, hb.inside⟩
  exact b.draft.arena.top_le_alloc kind _

theorem takeDeferred {f g : List Deferred → Walk β}
    (h : ∀ bodies, Twin whole stop v (G.Taken i bodies) S K (f bodies) (g bodies)) :
    Twin whole stop v (G.Waits i) S K (Walk.takeDeferred >>= f) (Walk.takeDeferred >>= g) :=
  first (J := fun bodies => G.Taken i bodies) (fun b hb => ⟨b.draft.deferred.toList, { b with draft.deferred := #[] },
    hb.take, rfl, fun _ => rfl⟩) h

end Twin

end Walk

/-- Two ways to replay that do the same with bodies that are settled, at least if they end before a given
index. -/
def Replay.Twins (whole : View) (stop : Option (Nat × Nat)) (r r' : Replay) : Prop :=
  ∀ {v : View}, v.CutOf whole → ∀ {bodies : List Deferred} {b : Builder}, b.Ready whole v bodies →
    Walk.Twin whole none v (· = b) Eq (fun _ => b.Replayed whole bodies) (r bodies) (r bodies) ∧
    ((∀ i ∈ stop, i.1 ≤ v.stmtStart ∧ ∀ a ∈ bodies, a.close < i.2) → ∀ t, r bodies v (b.timed t) = r' bodies v (b.timed t))

namespace Walk.Twin

variable {v : View} {G : Ground} {r r' : Replay} {i : Nat} {bodies : List Deferred} {β : Type} {K : β → Builder → Prop}
variable {f : Unit → Walk β}

theorem replay {I : Builder → Prop} (hr : Replay.Twins G.whole G.stop r r') (hv : G.Sees v)
    (hI : ∀ b, I b → b.Ready G.whole v bodies)
    (hf : ∀ b c, I b → b.Replayed G.whole bodies c → Twin G.whole G.stop v (· = c) Eq
      (fun x d => K x d ∧ ∀ a ∈ bodies, a.close < d.pos) (f ()) (f ())) :
    Twin G.whole G.stop v I Eq K (r bodies >>= f) (r' bodies >>= f) := by
  intro b hb
  obtain ⟨hrun, hsame⟩ := hr hv.cut (hI b hb)
  obtain ⟨states, ⟨x, c⟩, htrace, hlegs, hJ, hidle, _⟩ := hrun b rfl
  cases x with
  | error e =>
    refine ⟨states, _, htrace.bind_error, hlegs, (fun _ h => nomatch h), hidle, fun hadmits t => ?_⟩
    rw [bind_apply, bind_apply, hsame fun i hi => (hadmits i hi).1.elim fun _ h => nomatch h]
  | ok a =>
    obtain ⟨later, x, htrace', hlegs', hK, hidle', _⟩ := hf b c hb (hJ a rfl) c rfl
    refine ⟨states ++ later, x, htrace.bind_ok htrace', hlegs.append hlegs', fun a ha => (hK a ha).1,
      List.forall_mem_append.mpr ⟨hidle, hidle'⟩, fun hadmits t => ?_⟩
    rw [bind_apply, bind_apply, hsame fun i hi => ⟨hv.start.symm ▸ hv.first i hi, fun a ha => ?_⟩]
    obtain ⟨⟨d, hd⟩, hpos⟩ := hadmits i hi
    exact Nat.lt_of_lt_of_le ((hK d hd).2 a ha) hpos

theorem resume (hr : Replay.Twins G.whole G.stop r r') (hv : G.Sees v)
    (h : ∀ k, Ends (G.startAt k) v (G.startAt k).Clear Eq (f ()) (f ())) :
    Ends G v (G.Taken i bodies) Eq (r bodies >>= f) (r' bodies >>= f) := by
  refine replay hr hv (fun b hb => hb.ready hv) fun b c hb hc => ?_
  have hclear : G.Clear c := hb.toClear.replayed hc
  refine ((h c.pos).of fun d (hd : d = c) => hd ▸ hclear.startAt (Nat.le_refl _)).imp fun _ d hd => ⟨hd.ofStart hclear.le, ?_⟩
  exact fun a ha => Nat.lt_of_lt_of_le (hc.past a ha) hd.le

theorem headed {H : Ground} {k : Nat} {α : Type} {I : Builder → Prop} {p q : Walk α} {f : α → Walk Unit} (hk : G.start ≤ k)
    (hp : Twin H.whole H.stop v I Eq (fun _ b => H.Clear b ∧ b.pos ≤ k) p q)
    (hf : ∀ a, Twin H.whole H.stop v (fun b => H.Clear b ∧ b.pos ≤ k) Eq (fun _ => (G.startAt k).Clear) (f a) (f a)) :
    Twin H.whole H.stop v I Eq (fun _ => G.Clear) (p >>= f) (q >>= f) :=
  (hp.follow hf (fun _ _ hc => hc.2) fun _ _ hd => hd.le).imp fun _ _ hd => hd.ofStart hk

end Walk.Twin
end TaintScan
