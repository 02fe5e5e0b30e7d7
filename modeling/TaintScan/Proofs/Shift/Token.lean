import TaintScan.Proofs.Shift.Lines
import TaintScan.Proofs.Token.Cut

/-! # The tokens behind empty lines

The lexer looks at the bytes from a token on, at the token before, and at whether the two touch or a
line starts between them. So the tokens of a unit move with its content, and those of an expression
embedded in a string with the string.
-/
namespace TaintScan

open Text.Utf8 (Bytes)

namespace Token

def placed (bytes lines : Nat) (t : Token) : Token :=
  { t with span := t.span.moved bytes, line := t.line + lines, endLine := t.endLine + lines }

theorem ofBytes_placed (m n : Nat) (kind : TokenKind) (offset line : Nat) (bytes : Bytes) :
    ofBytes kind (offset + m) (line + n) bytes = (ofBytes kind offset line bytes).placed m n := by
  have hspan : offset + m + bytes.length = offset + bytes.length + m := Nat.add_right_comm ..
  have hend : line + n + newlines bytes - (if bytes.getLast? == some newline then 1 else 0) =
      line + newlines bytes - (if bytes.getLast? == some newline then 1 else 0) + n := by
    split
    · next hlast =>
      have hmem : newline ∈ bytes := List.mem_of_getLast? (eq_of_beq hlast)
      have hpos : 0 < newlines bytes := List.count_pos_iff.mpr hmem
      omega
    · omega
  simp only [ofBytes, placed, Span.moved, hspan, hend]

variable (k : Nat)

def moved (t : Token) : Token :=
  { t with span := t.span.moved k, line := t.line + k, endLine := t.endLine + k }

/-- The second lexer has so many bytes and logical lines more before it, and scans each token as the first one does:
whether a line starts only counts in some dialects, and so does the token before. -/
structure LexState.Placed (d : Dialect) (bytes lines : Nat) (s s' : LexState) : Prop where
  offset : s'.offset = s.offset + bytes
  line : s'.line = s.line + lines
  lineStart : (d.language == .ruby) = false ∨ s'.lineStart = s.lineStart
  previous : d.Linewise ∨ s'.previous = s.previous.map (placed bytes lines)

namespace LexState.Placed

variable {d : Dialect} {m n : Nat} {s s' : LexState}

theorem start (d : Dialect) (m n : Nat) (lineStart : Bool) (offset line : Nat) :
    Placed d m n ⟨lineStart, none, offset, line⟩ ⟨lineStart, none, offset + m, line + n⟩ :=
  ⟨rfl, rfl, Or.inr rfl, Or.inr rfl⟩

section

variable (h : Placed d m n s s')
include h

theorem advance (start : Bool) (k l : Nat) :
    Placed d m n { s with lineStart := start, offset := s.offset + k, line := s.line + l }
      { s' with lineStart := start, offset := s'.offset + k, line := s'.line + l } where
  offset := (congrArg (· + k) h.offset).trans (Nat.add_right_comm ..)
  line := (congrArg (· + l) h.line).trans (Nat.add_right_comm ..)
  lineStart := Or.inr rfl
  previous := h.previous

theorem behind (kind : TokenKind) (bytes : Bytes) :
    Placed d m n (s.behind kind bytes) (s'.behind kind bytes) where
  offset := (h.advance true bytes.length 0).offset
  line := (h.advance true 0 (newlines bytes)).line
  lineStart := Or.inr rfl
  previous := h.previous.imp_right fun hprevious => by
    rw [LexState.behind, LexState.behind, hprevious, h.offset, h.line, ofBytes_placed]
    split <;> rfl

theorem symbol?_eq (bytes : Bytes) :
    symbol? ⟨d, s'.lineStart, s'.previous, s'.offset⟩ bytes = symbol? ⟨d, s.lineStart, s.previous, s.offset⟩ bytes := by
  rcases h.previous with hd | hprevious
  · rw [symbol?_eq_none hd, symbol?_eq_none hd]
  · have htouch (stop : Nat) : (stop + m != s.offset + m) = (stop != s.offset) := by
      rw [Bool.eq_iff_iff]
      simp
    unfold symbol? symbolAllowed
    rw [hprevious, h.offset]
    cases s.previous with
    | none => rfl
    | some t => simp only [Option.map_some, placed, Span.moved, htouch]

theorem regex?_eq (bytes : Bytes) :
    regex? ⟨d, s'.lineStart, s'.previous, s'.offset⟩ bytes = regex? ⟨d, s.lineStart, s.previous, s.offset⟩ bytes := by
  rcases h.previous with hd | hprevious
  · rw [regex?_eq_none hd, regex?_eq_none hd]
  · unfold regex? regexAllowed
    rw [hprevious]
    cases s.previous <;> rfl

theorem scan_eq (bytes : Bytes) :
    scan ⟨d, s'.lineStart, s'.previous, s'.offset⟩ bytes = scan ⟨d, s.lineStart, s.previous, s.offset⟩ bytes := by
  have hcomment : comment? ⟨d, s'.lineStart, s'.previous, s'.offset⟩ bytes =
      comment? ⟨d, s.lineStart, s.previous, s.offset⟩ bytes := by
    unfold comment?
    rcases h.lineStart with hruby | hline
    · rw [hruby]
      rfl
    · rw [hline]
  unfold scan
  rw [hcomment, h.symbol?_eq, h.regex?_eq]
  rfl

end

end LexState.Placed

theorem Reads.placed {d : Dialect} {s s' e : LexState} {bytes : Bytes} {ts : List Token} {m n : Nat}
    (h : Reads d s bytes ts e) (hs : s.Placed d m n s') : lexFrom d s' 0 bytes = ts.map (Token.placed m n) := by
  induction h generalizing s' with
  | done s => rfl
  | line h ih => exact ih (hs.advance true 1 1)
  | blank hb hline h ih =>
    rw [lexFrom_blank hb hline]
    exact ih (hs.advance false 1 0)
  | join hgap h ih =>
    rw [lexFrom_continuation hgap]
    exact ih (hs.advance true _ 0)
  | token hb hn hscan h ih =>
    rw [lexFrom_token hb hn ((hs.scan_eq _).trans hscan), ih (hs.behind ..), hs.offset, hs.line, ofBytes_placed]
    rfl

theorem lexFrom_placed {d : Dialect} {s s' : LexState} {m n : Nat} (hs : s.Placed d m n s') (bytes : Bytes) :
    lexFrom d s' 0 bytes = (lexFrom d s 0 bytes).map (placed m n) :=
  (lexFrom_reads d s bytes).elim fun _ h => h.placed hs

theorem lexFrom_replicate (d : Dialect) (offset line : Nat) (bytes : Bytes) :
    lexFrom d ⟨true, none, offset, line⟩ 0 (List.replicate k newline ++ bytes) =
      lexFrom d ⟨true, none, offset + k, line + k⟩ 0 bytes := by
  induction k generalizing offset line with
  | zero => rfl
  | succ k ih =>
    have hstep := ih (offset + 1) (line + 1)
    rw [Nat.add_right_comm offset, Nat.add_right_comm line] at hstep
    exact hstep

theorem lex_moved (u : SourceUnit) :
    lex (u.moved k).language (u.moved k).content.toList = (lex u.language u.content.toList).map (moved k) := by
  rw [u.toList_content_moved k]
  have hlines := lexFrom_replicate k (.of u.language) 0 1 u.content.toList
  exact hlines.trans (lexFrom_placed (.start _ k k true 0 1) u.content.toList)

theorem lineStart_moved (u : SourceUnit) (start : Nat) :
    (start + k == 0 || (u.moved k).content[start + k - 1]? == some newline) =
      (start == 0 || u.content[start - 1]? == some newline) := by
  cases start with
  | zero =>
    cases k with
    | zero => rfl
    | succ k => simp [SourceUnit.moved, Array.getElem?_append]
  | succ start =>
    rw [Nat.add_right_comm, Nat.add_sub_cancel, Nat.add_sub_cancel]
    simp [SourceUnit.moved, Array.getElem?_append_right]

theorem lexSpan_moved (language : Language) (u : SourceUnit) (span : Span) (line : Nat) :
    lexSpan language (u.moved k).content (span.moved k) (line + k) =
      (lexSpan language u.content span line).map (moved k) := by
  have hsize : (u.moved k).content.size = u.content.size + k := u.size_moved k
  have hstop : min (span.stop + k) (u.content.size + k) = min span.stop u.content.size + k := by omega
  have hstart (stop : Nat) : min (span.start + k) (stop + k) = min span.start stop + k := by omega
  simp only [lexSpan, Span.moved, hsize, hstop, hstart, lineStart_moved, SourceUnit.extract_content_moved]
  exact lexFrom_placed (.start _ k k _ _ line) _

/-! ## A part of the content -/

/-- Whether a line starts only counts for the mark of a section comment. -/
theorem lexFrom_lineStart {bytes : Bytes} (h : Byte.startsWith "=begin" bytes = false) (d : Dialect) (s : LexState)
    (start : Bool) : lexFrom d { s with lineStart := start } 0 bytes = lexFrom d s 0 bytes := by
  have hscan : scan ⟨d, start, s.previous, s.offset⟩ bytes = scan ⟨d, s.lineStart, s.previous, s.offset⟩ bytes := by
    unfold scan comment?
    rw [h, Bool.and_false, Bool.and_false]
    rfl
  cases bytes with
  | nil => rfl
  | cons b rest => simp only [lexFrom, hscan]

def within (start line : Nat) (t : Token) : Token :=
  { t with span := t.span.moved start, line := t.line + line - 1, endLine := t.endLine + line - 1 }

theorem within_placed (start line : Nat) (t : Token) : (t.placed 0 1).within start line = t.placed start line := by
  have hline (n : Nat) : n + 1 + line - 1 = n + line := by omega
  simp only [within, placed, Span.moved, Nat.add_zero, hline]

theorem lexFrom_within (d : Dialect) (start line : Nat) (bytes : Bytes) {lineStart : Bool}
    (h : (d.language == .ruby) = false ∨ lineStart = true ∨ Byte.startsWith "=begin" bytes = false) :
    lexFrom d ⟨lineStart, none, start, line⟩ 0 bytes = (lexFrom d ⟨true, none, 0, 1⟩ 0 bytes).map (within start line) := by
  have hzero (m n : Nat) : lexFrom d ⟨true, none, m, n⟩ 0 bytes =
      (lexFrom d ⟨true, none, 0, 0⟩ 0 bytes).map (placed m n) := by
    rw [← lexFrom_placed (.start d m n true 0 0), Nat.zero_add, Nat.zero_add]
  have hstart : lexFrom d ⟨lineStart, none, start, line⟩ 0 bytes = lexFrom d ⟨true, none, start, line⟩ 0 bytes := by
    rcases h with hruby | hline | hbegin
    · have hplaced : LexState.Placed d start line ⟨true, none, 0, 0⟩ ⟨lineStart, none, start, line⟩ :=
        ⟨(Nat.zero_add _).symm, (Nat.zero_add _).symm, Or.inl hruby, Or.inr rfl⟩
      rw [hzero, lexFrom_placed hplaced]
    · rw [hline]
    · exact lexFrom_lineStart hbegin d ⟨true, none, start, line⟩ lineStart
  rw [hstart, hzero, hzero 0 1, List.map_map]
  exact List.map_congr_left fun t _ => (within_placed start line t).symm

/-- The tokens of a part of the content are those of its bytes alone, further on. In Ruby a part that is cut out of
a line must not start with the mark of a section comment. -/
theorem lexSpan_eq_map_lex {language : Language} {content : Array UInt8} {span : Span}
    (hstart : span.start ≤ span.stop) (hstop : span.stop ≤ content.size)
    (hcut : language = .ruby → span.start = 0 ∨ content[span.start - 1]? = some newline ∨
      Byte.startsWith "=begin" (content.extract span.start span.stop).toList = false) (line : Nat) :
    lexSpan language content span line =
      (lex language (content.extract span.start span.stop).toList).map (within span.start line) := by
  unfold lexSpan
  dsimp only
  rw [Nat.min_eq_left hstop, Nat.min_eq_left hstart]
  refine lexFrom_within _ _ _ _ ?_
  rw [Dialect.language_of]
  by_cases hruby : language = .ruby
  · rcases hcut hruby with hzero | hline | hbegin
    · exact Or.inr (Or.inl (by rw [hzero]; rfl))
    · exact Or.inr (Or.inl (by rw [hline]; simp))
    · exact Or.inr (Or.inr hbegin)
  · exact Or.inl (beq_false_of_ne hruby)

/-- The mark of a section comment at the start of the second line. -/
theorem lexSpan_behind_line :
    (Byte.ofAscii "f\n=begin\n=end").toArray[1]? = some newline ∧
      lexSpan .ruby (Byte.ofAscii "f\n=begin\n=end").toArray ⟨2, 13⟩ 2 =
        (lex .ruby (Byte.ofAscii "=begin\n=end")).map (within 2 2) := by
  have hline : (Byte.ofAscii "f\n=begin\n=end").toArray[1]? = some newline := by decide
  exact ⟨hline, lexSpan_eq_map_lex (by decide) (by decide) (fun _ => Or.inr (Or.inl hline)) 2⟩

end Token

namespace Interpolation

theorem segmentsFrom_moved (k : Nat) (style : Interpolation) (base skip : Nat) (bytes : Bytes) :
    segmentsFrom style (base + k) skip bytes = (segmentsFrom style base skip bytes).map (Span.moved k) := by
  induction bytes generalizing base skip with
  | nil => rfl
  | cons b rest ih =>
    have hrest (n : Nat) : segmentsFrom style (base + k + 1) n rest =
        (segmentsFrom style (base + 1) n rest).map (Span.moved k) := by
      rw [Nat.add_right_comm, ih]
    cases skip with
    | succ n => exact hrest n
    | zero =>
      simp only [segmentsFrom]
      split
      · exact hrest _
      · next start stop width _ =>
        rw [hrest, Nat.add_right_comm base k start, Nat.add_right_comm base k stop, Span.clamped_moved]
        rfl

end Interpolation

theorem Token.segments_moved (k : Nat) (d : Dialect) (t : Token) (bytes : Bytes) :
    (t.moved k).segments d bytes = (t.segments d bytes).map (Span.moved k) := by
  have hbase : (t.moved k).span.start = t.span.start + k := rfl
  have hkind : (t.moved k).kind = t.kind := rfl
  unfold segments
  rw [hbase, hkind]
  split
  · exact Interpolation.segmentsFrom_moved ..
  · exact Interpolation.segmentsFrom_moved ..
  · rfl
  · exact Interpolation.segmentsFrom_moved ..

end TaintScan
