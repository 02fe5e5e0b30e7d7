import TaintScan.Proofs.Finding.Merge
import TaintScan.Proofs.Shift.Extract

/-! # Findings behind empty lines

A pass over a unit behind empty lines goes as before. Places stay in order and equal details stay equal,
so candidates merge as before too, and what comes out are the same findings, moved.
-/
namespace TaintScan

/-! ## Details -/

/-- The digits at the end of a text, last first. -/
def Text.endDigits (s : String) : List Char := s.toList.reverse.takeWhile Char.isDigit

namespace Candidate

def originLine (labels : LabelSet) (line : Nat) : String :=
  labels.text ++ " data from line " ++ toString line

theorem toList_originLine (labels : LabelSet) (line : Nat) :
    (originLine labels line).toList =
      (labels.text.toList ++ " data from line ".toList) ++ Nat.toDigits 10 line := by
  simp only [originLine, String.toList_append, Nat.toString_eq_ofList_toDigits, String.toList_ofList]

theorem endDigits_originLine (labels : LabelSet) (line : Nat) :
    Text.endDigits (originLine labels line) = (Nat.toDigits 10 line).reverse := by
  have hdigits : ∀ c ∈ (Nat.toDigits 10 line).reverse, c.isDigit = true := by
    intro c hc
    exact Nat.isDigit_of_mem_toDigits (by decide) (by decide) (List.mem_reverse.mp hc)
  have hblank : (" data from line ".toList.reverse ++ labels.text.toList.reverse).takeWhile Char.isDigit = [] :=
    rfl
  rw [Text.endDigits, toList_originLine, List.reverse_append, List.takeWhile_append_of_pos hdigits,
    List.reverse_append, hblank, List.append_nil]

theorem originLine_inj {labels labels' : LabelSet} {line line' : Nat} :
    originLine labels line = originLine labels' line' ↔ labels.text = labels'.text ∧ line = line' := by
  constructor
  · intro h
    have hend := congrArg Text.endDigits h
    rw [endDigits_originLine, endDigits_originLine, List.reverse_inj] at hend
    have hline : line = line' := by
      have := congrArg (Nat.ofDigitChars 10 · 0) hend
      simpa [Nat.ofDigitChars_ten_toDigits] using this
    have hchars := congrArg String.toList h
    rw [toList_originLine, toList_originLine, hend, List.append_cancel_right_eq, List.append_cancel_right_eq,
      String.toList_inj] at hchars
    exact ⟨hchars, hline⟩
  · rintro ⟨htext, rfl⟩
    rw [originLine, htext, originLine]

/-- The detail of a candidate that has moved: the line that it tells is `k` lines further down. -/
inductive DetailMoved (k : Nat) : String → String → Prop
  | origin (labels : LabelSet) (line : Nat) :
    DetailMoved k (originLine labels line) (originLine labels (line + k))
  | other {detail : String} (h : Text.endDigits detail = []) : DetailMoved k detail detail

theorem endDigits_originLine_ne_nil (labels : LabelSet) (line : Nat) :
    Text.endDigits (originLine labels line) ≠ [] := by
  rw [endDigits_originLine]
  simp

theorem DetailMoved.eq_iff {k : Nat} {a b a' b' : String} (h : DetailMoved k a b)
    (h' : DetailMoved k a' b') : b = b' ↔ a = a' := by
  -- Only the line of an origin ends in a number.
  have hdiffer (labels : LabelSet) (line : Nat) {detail : String} (h : Text.endDigits detail = []) :
      originLine labels line ≠ detail :=
    fun heq => endDigits_originLine_ne_nil labels line (heq ▸ h)
  cases h with
  | origin labels line =>
    cases h' with
    | origin labels' line' => simp only [originLine_inj, Nat.add_right_cancel_iff]
    | other hother => exact iff_of_false (hdiffer _ _ hother) (hdiffer _ _ hother)
  | other hother =>
    cases h' with
    | origin labels' line' =>
      exact iff_of_false (fun heq => hdiffer _ _ hother heq.symm) (fun heq => hdiffer _ _ hother heq.symm)
    | other => exact Iff.rfl

theorem endDigits_ofShape (m : ShapeMatch) : ∀ detail ∈ (ofShape m).detail, Text.endDigits detail = [] := by
  unfold ofShape
  split
  · intro detail hdetail
    simp only [ofSecret, Option.mem_toList, Option.map_eq_some_iff] at hdetail
    obtain ⟨format, _, rfl⟩ := hdetail
    simp only [Text.endDigits, String.toList_append, List.reverse_append]
    rfl
  · unfold ofEvidence
    dsimp only
    split
    · exact List.forall_mem_singleton.mpr rfl
    · exact List.forall_mem_singleton.mpr rfl
    · exact List.forall_mem_nil _

end Candidate

/-! ## Candidates and findings -/

def Pairing.moved (u : SourceUnit) (k : Nat) : Pairing (.moved k) u (u.moved k) where
  language := rfl
  text h := by
    cases h
    exact u.text_moved k _
  detail := Candidate.DetailMoved k
  origin {s t} h labels := by
    cases h
    have hline : ((u.moved k).lines.position (s.moved k).start).1 = (u.lines.position s.start).1 + k :=
      congrArg Prod.fst (u.position_moved k s.start)
    rw [hline]
    exact .origin labels _
  syntactic m detail hdetail := .other (Candidate.endDigits_ofShape m detail hdetail)

theorem Pairing.moved_faithful (u : SourceUnit) (k : Nat) : (Pairing.moved u k).Faithful where
  start h h' := by
    cases h
    cases h'
    simp [Span.moved]
  stop h h' := by
    cases h
    cases h'
    simp [Span.moved]
  detail := Candidate.DetailMoved.eq_iff

def Candidate.withDetails (message : String) (details : List String) : String :=
  if details.isEmpty then message else message ++ " (" ++ Text.joinWith "; " details ++ ")"

/-- The same finding, `k` empty lines further down: every offset and every line has grown by `k`, also
the lines that the message quotes, and all else but the hash of the offsets is as it was. -/
structure Finding.Moved (k : Nat) (f g : Finding) : Prop where
  fingerprint : g.fingerprint = f.fingerprint
  ruleId : g.ruleId = f.ruleId
  category : g.category = f.category
  severity : g.severity = f.severity
  unitId : g.unitId = f.unitId
  location : g.location = f.location.moved k
  path : g.path = f.path.map (Location.moved k)
  confidence : g.confidence = f.confidence
  cweId : g.cweId = f.cweId
  owaspCategory : g.owaspCategory = f.owaspCategory
  message : ∃ message details details', List.Forall₂ (Candidate.DetailMoved k) details details' ∧
    f.message = Candidate.withDetails message details ∧ g.message = Candidate.withDetails message details'
  remediation : g.remediation = f.remediation
  snippet : g.snippet = f.snippet
  metadata : g.metadata = f.metadata

theorem Candidate.Alike.finding_moved {u : SourceUnit} {k : Nat} {c d : Candidate}
    (h : c.Alike (.moved u k) d) (options : AnalysisOptions) (category : Category) :
    (c.finding u options category).Moved k (d.finding (u.moved k) options category) := by
  have hspan : d.span = c.span.moved k := h.span
  have hlength : d.path.length = c.path.length := h.path.length_eq.symm
  have hsnippet : (u.moved k).linesAround d.span maxSnippetLines = u.linesAround c.span maxSnippetLines := by
    rw [hspan, u.linesAround_moved _ _ (by decide)]
  have hempty : d.path.isEmpty = c.path.isEmpty := by
    rw [Bool.eq_iff_iff, List.isEmpty_iff_length_eq_zero, List.isEmpty_iff_length_eq_zero, hlength]
  have hpath : d.path.map (Location.resolve (u.moved k)) =
      (c.path.map (Location.resolve u)).map (Location.moved k) := by
    rw [List.map_map, ← List.forall₂_eq_eq_eq, List.forall₂_map_left_iff, List.forall₂_map_right_iff]
    refine h.path.flip.imp fun t s hst => ?_
    cases hst
    exact u.resolve_moved k s
  have hmetadata : d.metadata = c.metadata := by
    simp only [Candidate.metadata, h.rule, h.adjacent, hempty, hlength]
  have hmessage : d.message = withDetails (c.rule.renderMessage c.bindings) d.detail := by
    simp only [message, h.rule, h.bindings]
    rfl
  exact
    { fingerprint := by simp only [finding, hsnippet, h.rule]; rfl
      ruleId := by simp only [finding, h.rule]
      category := rfl
      severity := by simp only [finding, h.rule, hlength, h.adjacent]
      unitId := rfl
      location := by simp only [finding, hspan, u.resolve_moved]
      path := hpath
      confidence := by simp only [finding, h.confidence, h.adjacent]
      cweId := by simp only [finding, h.rule]
      owaspCategory := by simp only [finding, h.rule]
      message := ⟨_, c.detail, d.detail, h.detail, rfl, hmessage⟩
      remediation := by simp only [finding, h.rule]
      snippet := hsnippet
      metadata := hmetadata }

namespace SourceUnit

variable {u : SourceUnit} {k : Nat}

theorem findings_moved {options : AnalysisOptions} {cs ds : List Candidate} {findings : List Finding}
    (halike : List.Forall₂ (Candidate.Alike (.moved u k)) cs ds)
    (h : List.Forall₂ (fun c f => c.toFinding u options = .ok f) cs findings) :
    ∃ findings', List.Forall₂ (fun d g => d.toFinding (u.moved k) options = .ok g) ds findings' ∧
      List.Forall₂ (Finding.Moved k) findings findings' := by
  induction halike generalizing findings with
  | nil =>
    cases h
    exact ⟨[], .nil, .nil⟩
  | @cons c d _ _ hcd _ ih =>
    cases h with
    | cons hf hrest =>
      obtain ⟨findings', hall, hmoved⟩ := ih hrest
      obtain ⟨category, hcategory, rfl⟩ := Candidate.toFinding_eq_ok_iff.mp hf
      rw [← hcd.rule] at hcategory
      have hg := Candidate.toFinding_eq_ok_iff.mpr
        ⟨category, hcategory, (rfl : d.finding (u.moved k) options category = _)⟩
      exact ⟨_, .cons hg hall, .cons (hcd.finding_moved options category) hmoved⟩

theorem analyze_moved {x y : ExtractedUnit} (hxy : x.Alike (.moved k) y) {registry : Registry}
    {options : AnalysisOptions} {countdown c : Countdown} {findings : List Finding}
    (h : u.analyze x registry options countdown = (.ok findings, c)) :
    ∃ findings', (u.moved k).analyze y registry options countdown = (.ok findings', c) ∧
      List.Forall₂ (Finding.Moved k) findings findings' := by
  -- The passes report alike, alike candidates merge alike, and what is left becomes moved findings.
  obtain ⟨candidates, htrack, hall⟩ := analyze_eq_ok_iff.mp h
  obtain ⟨candidates', htrack', halike⟩ := track_alike hxy (.moved u k) htrack
  have hmerged := Candidate.merge_alike (Pairing.moved_faithful u k) halike
  obtain ⟨findings', hall', hmoved⟩ := findings_moved hmerged hall
  exact ⟨findings', analyze_eq_ok_iff.mpr ⟨candidates', htrack', hall'⟩, hmoved⟩

end SourceUnit

theorem Scanner.scanUnit_eq {s : Scanner} {u : SourceUnit} {x : ExtractedUnit} {findings : List Finding}
    {countdown c c' : Countdown} (hsize : u.size ≤ s.maxUnitSizeKb * 1024)
    (hx : u.extract s.statementBound countdown = (.ok x, c))
    (h : u.analyze x s.registry s.options c = (.ok findings, c')) :
    ∃ scan, s.scanUnit u countdown = (.ok scan, c') ∧ scan.findings = findings := by
  unfold scanUnit
  rw [if_neg (Nat.not_lt.mpr hsize)]
  simp only [hx, h]
  exact ⟨_, rfl, rfl⟩

namespace LaterCall

/-- A call below a comment. -/
def unit : SourceUnit :=
  { id := "a.py", language := .python, content := (Text.Utf8.encode "# a\nrun(ask())\n").toArray }

def ask : Rule := { id := "ask", name := "ask", matcher := .source { callees := [⟨"ask", false⟩] } }

def run : Rule :=
  { id := "run", name := "run", category := some .codeInjection, message := "m"
    cweId := some "CWE-94", matcher := .sink { callees := [⟨"run", false⟩] } }

def statement : Statement := { kind := .call, operands := [1], span := ⟨4, 14⟩, controlTag := 0 }

def scope : Scope := { kind := .module, name := "", headerSpan := ⟨0, 0⟩, statements := #[statement] }

def extracted : ExtractedUnit :=
  { arena := ⟨#[⟨.call "ask" none [] false, ⟨8, 13⟩⟩, ⟨.call "run" none [0] false, ⟨4, 14⟩⟩], #[1, 2]⟩
    scopes := #[scope], stats := { statements := 1, scopes := 1 } }

theorem extract_unit : unit.extract 1 .never = (.ok extracted, .never) := by
  decide +kernel

theorem ofRules_pair : Registry.ofRules [ask, run] = .ok (.ofOrdered [ask, run]) := by
  have hask : ask.validate = .ok () := by
    decide +kernel
  have hrun : run.validate = .ok () := by
    decide +kernel
  have horder : Registry.orderById [ask, run] = [ask, run] :=
    List.mergeSort_of_pairwise (by decide +kernel)
  simp only [Registry.ofRules, Registry.validateAll, hask, hrun, horder]
  rfl

theorem track_extracted : ∃ c, unit.track extracted (.ofOrdered [ask, run]) {} .never = (.ok [c], .never) ∧
    c.rule = run ∧ c.span = ⟨4, 14⟩ ∧ c.message = "m (untrusted data from line 2)" := by
  let s := unit.siteIn extracted (.ofOrdered [ask, run]) {} #[] scope
  let after := ((s.atStatement statement {}).effect statement [] {}).2
  have hok : s.statement statement {} = .ok after := by
    refine Site.statement_eq_ok_iff.mpr ⟨[], ?_, rfl⟩
    cbv
  have hmodule : unit.Reaches extracted (.ofOrdered [ask, run]) {} #[] (.within scope 0) {} := .enter .start rfl
  have htrack := ((hmodule.step rfl hok).leave rfl).track_eq (Nat.le_refl 1)
  have hcandidates : after.candidates.toList.map (fun c => (c.rule, c.span, c.message)) =
      [(run, ⟨4, 14⟩, "m (untrusted data from line 2)")] := by
    decide +kernel
  obtain ⟨c, hc, heq⟩ := List.map_eq_singleton_iff.mp hcandidates
  obtain ⟨hrule, hspan, hmessage⟩ : c.rule = run ∧ c.span = ⟨4, 14⟩ ∧ _ := by
    simpa only [Prod.mk.injEq] using heq
  rw [hc] at htrack
  exact ⟨c, htrack, hrule, hspan, hmessage⟩

end LaterCall
end TaintScan
