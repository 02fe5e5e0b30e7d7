import TaintScan.Proofs.Text.Trim
import TaintScan.Rule.Params

/-! # Reading back what a matcher writes

A matcher that is read from parameters writes out all of them, those left at their default as well, and
is read again from what it writes. `Matcher.Readable` says which matchers come from parameters at all.
-/
namespace TaintScan

namespace Text

theorem dropHead?_eq_some_iff {head s rest : String} :
    dropHead? head s = some rest ↔ s.toList = head.toList ++ rest.toList := by
  unfold dropHead?
  split
  · next hprefix =>
    obtain ⟨tail, htail⟩ := List.isPrefixOf_iff_prefix.mp hprefix
    rw [← htail, List.drop_left, Option.some.injEq, List.append_cancel_left_eq, ← String.toList_inj,
      String.toList_ofList]
  · next hprefix =>
    constructor
    · intro h
      cases h
    · intro h
      exact absurd (List.isPrefixOf_iff_prefix.mpr ⟨rest.toList, h.symm⟩) hprefix

end Text

/-! ## Patterns -/

namespace CalleePattern

def Written (p : CalleePattern) : Prop := ofText p.text = p

/-- The name behind `new` is not empty, because nothing blank ends the whole. -/
theorem written_of_constructor {text rest : String}
    (h : Text.dropHead? "new " (Text.trim text) = some rest) : Written ⟨Text.trim rest, true⟩ := by
  have hchars := Text.dropHead?_eq_some_iff.mp h
  have hwhole : Text.Trimmed Text.isBlank ("new ".toList ++ rest.toList) := by
    rw [← hchars, Text.toList_trim]
    exact Text.trimmed_trimBy _ _
  obtain ⟨last, hlast⟩ : ∃ last, rest.toList.getLast? = some last := by
    cases hrest : rest.toList.getLast? with
    | some last => exact ⟨last, rfl⟩
    | none =>
      have hblank := hwhole.last ' ' (by rw [List.getLast?_eq_none_iff.mp hrest]; rfl)
      cases hblank
  have hnot : Text.isBlank last = false := by
    refine hwhole.last last ?_
    rw [List.getLast?_append, hlast]
    rfl
  have hname := Text.trimmed_trimBy Text.isBlank rest.toList
  have hmem := Text.mem_trimBy (List.mem_of_getLast? hlast) hnot
  have hagain : Text.Trimmed Text.isBlank ("new ".toList ++ Text.trimBy Text.isBlank rest.toList) := by
    refine ⟨hwhole.head, fun c hc => hname.last c ?_⟩
    obtain ⟨final, hfinal⟩ := Option.isSome_iff_exists.mp (List.getLast?_isSome.mpr (List.ne_nil_of_mem hmem))
    rw [List.getLast?_append, hfinal] at hc
    exact hfinal.trans hc
  have hdrop : Text.dropHead? "new " (Text.trim ("new " ++ Text.trim rest)) = some (Text.trim rest) := by
    rw [Text.dropHead?_eq_some_iff, Text.toList_trim, String.toList_append, Text.toList_trim,
      hagain.trimBy_eq]
  rw [Written, CalleePattern.text, if_pos rfl, ofText, hdrop]
  dsimp only
  rw [Text.trim_trim]

theorem written_ofText (text : String) : (ofText text).Written := by
  cases h : Text.dropHead? "new " (Text.trim text) with
  | some rest =>
    have hread : ofText text = ⟨Text.trim rest, true⟩ := by rw [ofText, h]
    rw [hread]
    exact written_of_constructor h
  | none =>
    have hread : ofText text = ⟨Text.trim text, false⟩ := by rw [ofText, h]
    have htext : (⟨Text.trim text, false⟩ : CalleePattern).text = Text.trim text := rfl
    rw [hread, Written, htext, ofText, Text.trim_trim, h]

end CalleePattern

/-! ## Codes -/

theorem LabelSet.ofList_toList (labels : LabelSet) : ofList labels.toList = labels := by
  obtain ⟨untrusted, secret⟩ := labels
  cases untrusted <;> cases secret <;> rfl

theorem Label.ofCode?_code (label : Label) : ofCode? label.code = some label := by
  cases label <;> decide

theorem MatcherKind.ofCode?_code (kind : MatcherKind) : ofCode? kind.code = some kind := by
  cases kind <;> decide

theorem MatcherKind.code_of_ofCode? {text : String} {kind : MatcherKind} (h : ofCode? text = some kind) :
    kind.code = text := by
  have hfound := List.find?_some h
  exact eq_of_beq hfound

/-! ## Values -/

namespace Value

variable {α : Type} {item? : Value → Option α} {v : Value}

theorem listOf?_map {write : α → Value} {l : List α} (h : ∀ a ∈ l, item? (write a) = some a) :
    (list (l.map write)).listOf? item? = some l := by
  change (l.map write).mapM item? = some l
  induction l with
  | nil => rfl
  | cons a rest ih =>
    obtain ⟨ha, hrest⟩ := List.forall_mem_cons.mp h
    rw [List.map_cons, List.mapM_cons, ha, ih hrest]
    rfl

theorem exists_of_mem_listOf? {l : List α} (h : v.listOf? item? = some l) {a : α} (ha : a ∈ l) :
    ∃ w, item? w = some a := by
  obtain ⟨items, -, hitems⟩ := Option.bind_eq_some_iff.mp h
  clear h
  induction items generalizing l with
  | nil =>
    cases hitems
    cases ha
  | cons w items ih =>
    rw [List.mapM_cons] at hitems
    obtain ⟨b, hb, hitems⟩ := Option.bind_eq_some_iff.mp hitems
    obtain ⟨rest, hrest, hl⟩ := Option.bind_eq_some_iff.mp hitems
    cases hl
    rcases List.mem_cons.mp ha with rfl | ha
    · exact ⟨w, hb⟩
    · exact ih ha hrest

theorem texts?_textValues (texts : List String) : (Matcher.textValues texts).texts? = some texts :=
  listOf?_map fun _ _ => rfl

theorem callees?_calleeValues {callees : List CalleePattern} (h : ∀ p ∈ callees, p.Written) :
    (Matcher.calleeValues callees).callees? = some callees := by
  rw [Matcher.calleeValues, Matcher.textValues, List.map_map]
  exact listOf?_map fun p hp => congrArg some (h p hp)

theorem labels?_labelValues (labels : LabelSet) : (Matcher.labelValues labels).labels? = some labels := by
  have hlist : (Matcher.labelValues labels).listOf? label? = some labels.toList := by
    rw [Matcher.labelValues, Matcher.textValues, List.map_map]
    exact listOf?_map fun label _ => label.ofCode?_code
  rw [labels?, hlist, Option.map_some, LabelSet.ofList_toList]

theorem written_of_callees? {callees : List CalleePattern} (h : v.callees? = some callees) :
    ∀ p ∈ callees, p.Written := by
  intro p hp
  obtain ⟨w, hw⟩ := exists_of_mem_listOf? h hp
  obtain ⟨text, -, rfl⟩ := Option.map_eq_some_iff.mp hw
  exact CalleePattern.written_ofText text

theorem le_maxNat_of_nat? {n : Nat} (h : v.nat? = some n) : n ≤ maxNat := by
  unfold nat? at h
  split at h
  · split at h
    · next hle =>
      cases h
      exact hle
    · cases h
  · exact of_decide_eq_true (Option.filter_eq_some_iff.mp h).2
  · cases h

end Value

theorem readField?_eq_some {α : Type} {fields : List (String × Value)} {name : String} {missing : Option α}
    {value? : Value → Option α} {a : α} (h : readField? fields name missing value? = some a) :
    missing = some a ∨ ∃ v, value? v = some a := by
  unfold readField? at h
  split at h
  · exact Or.inr ⟨_, h⟩
  · exact Or.inl h

theorem written_of_readField? {fields : List (String × Value)} {name : String} {callees : List CalleePattern}
    (h : readField? fields name (some []) Value.callees? = some callees) : ∀ p ∈ callees, p.Written := by
  rcases readField?_eq_some h with hmissing | ⟨v, hv⟩
  · cases hmissing
    exact List.forall_mem_nil _
  · exact Value.written_of_callees? hv

/-! ## Matchers -/

namespace Matcher

def callees : Matcher → List CalleePattern
  | source s => s.callees
  | sink s => s.callees
  | sanitizer s => s.callees
  | syntactic (.weakAlgorithm callees _) => callees
  | syntactic (.forbiddenCall callees) => callees
  | syntactic (.insecureRandom callees _) => callees
  | syntactic (.hardcodedSecret _) => []

/-- The matcher has something to match and something to do. -/
def Complete : Matcher → Prop
  | source s => s.callees ≠ [] ∨ s.paths ≠ []
  | sink s => (s.callees ≠ [] ∨ s.targets ≠ []) ∧ (s.requires.isEmpty = false ∨ s.hasTrigger = true) ∧
      ∀ n ∈ s.args, n ≤ Value.maxNat
  | sanitizer s => s.callees ≠ [] ∧ s.removes.isEmpty = false
  | syntactic (.weakAlgorithm callees algorithms) => callees ≠ [] ∧ algorithms ≠ []
  | syntactic (.forbiddenCall callees) => callees ≠ []
  | syntactic (.insecureRandom callees context) => callees ≠ [] ∧ context ≠ []
  | syntactic (.hardcodedSecret names) => names ≠ []

theorem isEmpty_and_eq_false_iff {α β : Type} {l : List α} {l' : List β} :
    (l.isEmpty && l'.isEmpty) = false ↔ l ≠ [] ∨ l' ≠ [] := by
  cases l <;> cases l' <;> simp

/-- The matchers that parameters give. -/
structure Readable (m : Matcher) : Prop where
  written : ∀ p ∈ m.callees, p.Written
  complete : m.Complete

/-! ### From a matcher to its parameters and back -/

theorem source?_parameters {s : SourceSpec} (h : ∀ p ∈ s.callees, p.Written) :
    source? (source s).parameters = some s := by
  have hlabel : Value.optional? Value.label? (.text s.label.code) = some (some s.label) := by
    change (Label.ofCode? s.label.code).map some = _
    rw [Label.ofCode?_code]
    rfl
  change (do
    let callees ← (calleeValues s.callees).callees?
    let paths ← (textValues s.paths).texts?
    let label ← Value.optional? Value.label? (.text s.label.code)
    return (⟨callees, paths, label.getD .untrusted⟩ : SourceSpec)) = some s
  rw [Value.callees?_calleeValues h, Value.texts?_textValues, hlabel]
  rfl

theorem optional?_labelValues (labels : LabelSet) :
    Value.optional? Value.labels? (labelValues labels) = some (some labels) := by
  change ((labelValues labels).labels?).map some = _
  rw [Value.labels?_labelValues]
  rfl

theorem sink?_parameters {s : SinkSpec} (h : ∀ p ∈ s.callees, p.Written)
    (hargs : ∀ n ∈ s.args, n ≤ Value.maxNat) : sink? (sink s).parameters = some s := by
  have hargs : (Value.list (s.args.map fun n => .int (.ofNat n))).listOf? Value.nat? = some s.args :=
    Value.listOf?_map fun n hn => if_pos (hargs n hn)
  change (do
    let callees ← (calleeValues s.callees).callees?
    let targets ← (textValues s.targets).texts?
    let args ← (Value.list (s.args.map fun n => .int (.ofNat n))).listOf? Value.nat?
    let requires ← Value.optional? Value.labels? (labelValues s.requires)
    return (⟨callees, targets, args, requires.getD (.of .untrusted), s.concatenation, s.bareUnresolved⟩ :
      SinkSpec)) = some s
  rw [Value.callees?_calleeValues h, Value.texts?_textValues, hargs, optional?_labelValues]
  rfl

theorem sanitizer?_parameters {s : SanitizerSpec} (h : ∀ p ∈ s.callees, p.Written) :
    sanitizer? (sanitizer s).parameters = some s := by
  change (do
    let callees ← (calleeValues s.callees).callees?
    let removes ← Value.optional? Value.labels? (labelValues s.removes)
    return (⟨callees, removes.getD (.of .untrusted), s.isPartial⟩ : SanitizerSpec)) = some s
  rw [Value.callees?_calleeValues h, optional?_labelValues]
  rfl

/-- The lists of a shape; it leaves those empty that it does not take. -/
def ShapeLists.ofShape : Shape → ShapeLists
  | .weakAlgorithm callees algorithms => ⟨.weakAlgorithm, callees, algorithms, [], []⟩
  | .forbiddenCall callees => ⟨.forbiddenCall, callees, [], [], []⟩
  | .insecureRandom callees context => ⟨.insecureRandom, callees, [], context, []⟩
  | .hardcodedSecret names => ⟨.hardcodedSecret, [], [], [], names⟩

theorem ShapeLists.toShape_ofShape (shape : Shape) : (ofShape shape).toShape = shape := by
  cases shape <;> rfl

theorem shapeLists?_parameters {shape : Shape} (h : ∀ p ∈ (syntactic shape).callees, p.Written) :
    shapeLists? (syntactic shape).parameters = some (.ofShape shape) := by
  cases shape with
  | weakAlgorithm callees algorithms =>
    have hcallees : ∀ p ∈ callees, p.Written := h
    change (do
      let callees ← (calleeValues callees).callees?
      let algorithms ← (textValues algorithms).texts?
      return (⟨.weakAlgorithm, callees, algorithms, [], []⟩ : ShapeLists)) = _
    rw [Value.callees?_calleeValues hcallees, Value.texts?_textValues]
    rfl
  | forbiddenCall callees =>
    have hcallees : ∀ p ∈ callees, p.Written := h
    change (do
      let callees ← (calleeValues callees).callees?
      return (⟨.forbiddenCall, callees, [], [], []⟩ : ShapeLists)) = _
    rw [Value.callees?_calleeValues hcallees]
    rfl
  | insecureRandom callees context =>
    have hcallees : ∀ p ∈ callees, p.Written := h
    change (do
      let callees ← (calleeValues callees).callees?
      let context ← (textValues context).texts?
      return (⟨.insecureRandom, callees, [], context, []⟩ : ShapeLists)) = _
    rw [Value.callees?_calleeValues hcallees, Value.texts?_textValues]
    rfl
  | hardcodedSecret names =>
    change (do
      let names ← (textValues names).texts?
      return (⟨.hardcodedSecret, [], [], [], names⟩ : ShapeLists)) = _
    rw [Value.texts?_textValues]
    rfl

theorem ShapeLists.fault?_ofShape {shape : Shape} (h : (syntactic shape).Complete) (id : String) :
    (ofShape shape).fault? id = none := by
  cases shape with
  | weakAlgorithm callees algorithms =>
    obtain ⟨hcallees, halgorithms⟩ := h
    simp [fault?, ofShape, hcallees, halgorithms]
  | forbiddenCall callees => simp [fault?, ofShape, show callees ≠ [] from h]
  | insecureRandom callees context =>
    obtain ⟨hcallees, hcontext⟩ := h
    simp [fault?, ofShape, hcallees, hcontext]
  | hardcodedSecret names => simp [fault?, ofShape, show names ≠ [] from h]

variable {m : Matcher} {v : Value} {id : String}

theorem Readable.ofKind_parameters (h : m.Readable) (id : String) : ofKind id m.kind m.parameters = .ok m := by
  obtain ⟨hwritten, hcomplete⟩ := h
  cases m with
  | source s =>
    simp only [ofKind, kind, source?_parameters hwritten, isEmpty_and_eq_false_iff.mpr hcomplete]
    rfl
  | sink s =>
    obtain ⟨hmatch, htrigger, hargs⟩ := hcomplete
    have htrigger : (s.requires.isEmpty && !s.hasTrigger) = false := by
      rcases htrigger with hrequires | htrigger
      · rw [hrequires, Bool.false_and]
      · rw [htrigger, Bool.not_true, Bool.and_false]
    simp only [ofKind, kind, sink?_parameters hwritten hargs, isEmpty_and_eq_false_iff.mpr hmatch, htrigger]
    rfl
  | sanitizer s =>
    obtain ⟨hmatch, hremoves⟩ := hcomplete
    have hmatch : s.callees.isEmpty = false := by simpa using hmatch
    simp only [ofKind, kind, sanitizer?_parameters hwritten, hmatch, hremoves]
    rfl
  | syntactic shape =>
    simp only [ofKind, kind, shapeLists?_parameters hwritten, ShapeLists.fault?_ofShape hcomplete,
      ShapeLists.toShape_ofShape]

/-! ### Parameters give readable matchers -/

theorem written_of_source? {s : SourceSpec} (h : source? v = some s) : ∀ p ∈ s.callees, p.Written := by
  simp only [source?, Option.bind_eq_bind, Option.bind_eq_some_iff] at h
  obtain ⟨fields, _, callees, hcallees, _, _, _, _, hs⟩ := h
  cases hs
  exact written_of_readField? hcallees

theorem written_of_sink? {s : SinkSpec} (h : sink? v = some s) :
    (∀ p ∈ s.callees, p.Written) ∧ ∀ n ∈ s.args, n ≤ Value.maxNat := by
  simp only [sink?, Option.bind_eq_bind, Option.bind_eq_some_iff] at h
  obtain ⟨fields, _, callees, hcallees, _, _, args, hargs, _, _, _, _, _, _, hs⟩ := h
  cases hs
  refine ⟨written_of_readField? hcallees, fun n hn => ?_⟩
  rcases readField?_eq_some hargs with hmissing | ⟨w, hw⟩
  · cases hmissing
    cases hn
  · obtain ⟨item, hitem⟩ := Value.exists_of_mem_listOf? hw hn
    exact Value.le_maxNat_of_nat? hitem

theorem written_of_sanitizer? {s : SanitizerSpec} (h : sanitizer? v = some s) : ∀ p ∈ s.callees, p.Written := by
  simp only [sanitizer?, Option.bind_eq_bind, Option.bind_eq_some_iff] at h
  obtain ⟨fields, _, callees, hcallees, _, _, _, _, hs⟩ := h
  cases hs
  exact written_of_readField? hcallees

theorem written_of_shapeLists? {p : ShapeLists} (h : shapeLists? v = some p) : ∀ q ∈ p.callees, q.Written := by
  simp only [shapeLists?, Option.bind_eq_bind, Option.bind_eq_some_iff] at h
  obtain ⟨fields, _, _, _, callees, hcallees, _, _, _, _, _, _, hp⟩ := h
  cases hp
  exact written_of_readField? hcallees

theorem ite_some_eq_none {α : Type} {c : Prop} [Decidable c] {a : α} {x : Option α} :
    (if c then some a else x) = none ↔ ¬c ∧ x = none := by
  split <;> simp [*]

theorem ShapeLists.complete_of_fault? {p : ShapeLists} (h : p.fault? id = none) : (syntactic p.toShape).Complete := by
  obtain ⟨shape, callees, algorithms, context, names⟩ := p
  obtain ⟨hcallees, h⟩ := ite_some_eq_none.mp h
  obtain ⟨hneeded, -⟩ := ite_some_eq_none.mp h
  cases shape with
  | weakAlgorithm => exact ⟨by simpa using hcallees, by simpa using hneeded⟩
  | forbiddenCall =>
    rintro rfl
    exact hcallees rfl
  | insecureRandom => exact ⟨by simpa using hcallees, by simpa using hneeded⟩
  | hardcodedSecret =>
    rintro rfl
    exact hneeded rfl

theorem ShapeLists.callees_toShape (p : ShapeLists) : ∀ q ∈ (syntactic p.toShape).callees, q ∈ p.callees := by
  obtain ⟨shape, callees, algorithms, context, names⟩ := p
  cases shape <;> simp [toShape, Matcher.callees]

theorem readable_of_ofKind {k : MatcherKind} (h : ofKind id k v = .ok m) : m.kind = k ∧ m.Readable := by
  cases k with
  | source =>
    simp only [ofKind] at h
    split at h
    · cases h
    · next s hs =>
      split at h
      · cases h
      · next hmatch =>
        cases h
        exact ⟨rfl, written_of_source? hs, isEmpty_and_eq_false_iff.mp (Bool.eq_false_iff.mpr hmatch)⟩
  | sink =>
    simp only [ofKind] at h
    split at h
    · cases h
    · next s hs =>
      obtain ⟨hwritten, hargs⟩ := written_of_sink? hs
      split at h
      · cases h
      · next hmatch =>
        split at h
        · cases h
        · next htrigger =>
          cases h
          refine ⟨rfl, hwritten, ?_, ?_, hargs⟩
          · exact isEmpty_and_eq_false_iff.mp (Bool.eq_false_iff.mpr hmatch)
          · cases hrequires : s.requires.isEmpty with
            | false => exact Or.inl rfl
            | true => exact Or.inr (by simpa [hrequires] using htrigger)
  | sanitizer =>
    simp only [ofKind] at h
    split at h
    · cases h
    · next s hs =>
      split at h
      · cases h
      · next hmatch =>
        split at h
        · cases h
        · next hremoves =>
          cases h
          exact ⟨rfl, written_of_sanitizer? hs, by simpa using hmatch, Bool.eq_false_iff.mpr hremoves⟩
  | syntactic =>
    simp only [ofKind] at h
    split at h
    · cases h
    · next p hp =>
      split at h
      · cases h
      · next hfault =>
        cases h
        exact ⟨rfl, fun q hq => written_of_shapeLists? hp q (p.callees_toShape q hq),
          ShapeLists.complete_of_fault? hfault⟩

theorem ofParameters_eq_ok {kind : String} (h : ofParameters id kind v = .ok m) :
    ∃ k w, MatcherKind.ofCode? kind = some k ∧ ofKind id k w = .ok m := by
  unfold ofParameters at h
  split at h
  · cases h
  · next k hk =>
    split at h
    · exact ⟨k, _, hk, h⟩
    · exact ⟨k, _, hk, h⟩

theorem Readable.ofParameters_parameters (h : m.Readable) (id : String) :
    ofParameters id m.kind.code m.parameters = .ok m := by
  have hread := h.ofKind_parameters id
  unfold ofParameters
  rw [MatcherKind.ofCode?_code]
  dsimp only
  split
  · next hnull =>
    -- No matcher writes null.
    cases m with
    | syntactic shape => cases shape <;> cases hnull
    | source s => cases hnull
    | sink s => cases hnull
    | sanitizer s => cases hnull
  · exact hread

/-- A matcher that parameters give is of their kind, and its own kind and parameters give it again, for any
rule. A pattern is read again from its text, and a label set from the list of its labels. -/
theorem parameters_read_back :
    (∀ {id kind : String} {v : Value} {m : Matcher}, ofParameters id kind v = .ok m →
      m.kind.code = kind ∧ ∀ id', ofParameters id' m.kind.code m.parameters = .ok m) ∧
    (∀ text : String, CalleePattern.ofText (CalleePattern.ofText text).text = CalleePattern.ofText text) ∧
    ∀ labels : LabelSet, LabelSet.ofList labels.toList = labels ∧
      (labelValues labels).labels? = some labels := by
  refine ⟨fun h => ?_, CalleePattern.written_ofText, fun labels => ?_⟩
  · obtain ⟨k, w, hk, hread⟩ := ofParameters_eq_ok h
    obtain ⟨rfl, hreadable⟩ := readable_of_ofKind hread
    exact ⟨MatcherKind.code_of_ofCode? hk, hreadable.ofParameters_parameters⟩
  · exact ⟨labels.ofList_toList, Value.labels?_labelValues labels⟩

/-- A sink whose constructor is written with blanks around its parts, without the label that it requires. -/
def paddedSink : Value :=
  .map [("callees", .list [.text " new  Runtime\t", .text "exec"]), ("args", .list [.int 0]), ("requires", .null)]

theorem parameters_read_back_padded :
    ofParameters "run" "sink" paddedSink =
      .ok (.sink { callees := [⟨"Runtime", true⟩, ⟨"exec", false⟩], args := [0] }) ∧
    ofParameters "again" "sink"
        (.map [("callees", .list [.text "new Runtime", .text "exec"]), ("targets", .list []), ("args", .list [.int 0]),
          ("requires", .list [.text "untrusted"]), ("concatenation", .bool false), ("bare_unresolved", .bool false)]) =
      .ok (.sink { callees := [⟨"Runtime", true⟩, ⟨"exec", false⟩], args := [0] }) := by
  have hread : ofParameters "run" "sink" paddedSink =
      .ok (.sink { callees := [⟨"Runtime", true⟩, ⟨"exec", false⟩], args := [0] }) := by rfl
  exact ⟨hread, (parameters_read_back.1 hread).2 "again"⟩

end Matcher
end TaintScan
