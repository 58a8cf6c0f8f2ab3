import GnuPoc.Rcomp.FileLine

/-!
# GnuPoc.Rcomp.ReportedLine — the line and the file of an error (`fileline.cpp`, `rcomp.l`)

The scanner is run beside a record of the last marker it has read.  What `GetErrorLine` takes off the count is the
count at that marker, and the number in the marker enters only where the marker returns to a file.
-/

namespace GnuPoc.Rcomp.FileLine

open GnuPoc.Lib FileLineManager

/-- A marker as it was read; `line` is its line in the preprocessed source. -/
structure Seen where
  line : ℕ
  number : ℕ
  name : Bytes
  flag : Flag
  /-- A marker with neither a name nor a flag came before. -/
  baseSeen : Bool
  deriving DecidableEq

/-- The scanner with what is left of the source, the line it is in, and the last marker. -/
structure Watch where
  rest : Bytes
  scan : Scan
  line : ℕ
  last : Option Seen
  baseSeen : Bool
  deriving DecidableEq

def Watch.start (text : Bytes) : Watch := ⟨text, Scan.start, 1, none, false⟩

/-- One match of the scanner.  The line is counted by the ends of lines that are behind it. -/
def Watch.step (InputBaseName : Bytes) (w : Watch) : Outcome Watch := do
  let (rest, scan) ← lexStep InputBaseName w.rest w.scan
  let line := w.line + (w.rest.take (w.rest.length - rest.length)).count 10
  match endsMarker w.rest w.scan with
  | none => .ok ⟨rest, scan, line, w.last, w.baseSeen⟩
  | some (name, flag, _) =>
    .ok ⟨rest, scan, line, some ⟨line, digitsValue (w.scan.RealLineNumber.takeWhile isdigit), name, flag, w.baseSeen⟩,
      w.baseSeen || decide (flag = .none ∧ name = [])⟩

def Watch.run (InputBaseName : Bytes) : ℕ → Watch → Outcome Watch
  | 0, w => .ok w
  | n + 1, w => w.step InputBaseName >>= Watch.run InputBaseName n

/-! ### What is expected -/

/-- The file that a marker names. -/
def Seen.named (base : Bytes) (m : Seen) : Bytes := if m.name = [] then base else m.name

/-- Two spellings of one file: a slash is written as a backslash. -/
def SameFile (f f' : Bytes) : Prop := dosName f = dosName f'

/-- The line and the file that an error in the line of `w` is reported with are those that the last marker gives. -/
def ReportsAs (base : Bytes) (m : Seen) (w : Watch) : Prop :=
  SameFile w.scan.handler.GetCurrentFile (m.named base) ∧
    (w.scan.handler.GetErrorLine w.scan.yylineno).toInt = (m.number : ℤ) + ((w.line : ℤ) - m.line) - 1

/-! ### One match -/

/-- The start of the name that comes out of the text of a marker. -/
def cutName (name : Bytes) : Bytes := (readCString name).take PATH_MAX

theorem takeWhile_take {α : Type} (p : α → Bool) (n : ℕ) (l : List α) : (l.take n).takeWhile p = (l.takeWhile p).take n := by
  induction n generalizing l with
  | zero => rfl
  | succ n ih =>
    cases l with
    | nil => rfl
    | cons a l =>
      rw [List.take_succ_cons, List.takeWhile_cons, List.takeWhile_cons, ih]
      cases p a with
      | true => rfl
      | false => rfl

theorem ExtractFileName_eq (h : FileLineManager) {name : Bytes} (hname : 34 ∉ name) (text : Bytes) :
    h.ExtractFileName (name ++ 34 :: text) =
      dosName (if cutName name = [] then h.iBaseFileName.take PATH_MAX else cutName name) := by
  have hcut : ((readCString (name ++ 34 :: text)).take PATH_MAX).takeWhile (· ≠ 34) = cutName name := by
    have hwhile : (name ++ 34 :: text).takeWhile (· ≠ 34) = name := by
      rw [List.takeWhile_append_of_pos, List.takeWhile_cons_of_neg (by decide), List.append_nil]
      intro c hc
      exact decide_eq_true fun (heq : c = 34) => hname (heq ▸ hc)
    have hcomm : ((name ++ 34 :: text).takeWhile (· ≠ 0)).takeWhile (· ≠ 34) =
        ((name ++ 34 :: text).takeWhile (· ≠ 34)).takeWhile (· ≠ 0) := by
      rw [List.takeWhile_takeWhile, List.takeWhile_takeWhile]
      simp only [and_comm]
    rw [takeWhile_take, readCString, hcomm, hwhile, cutName, readCString]
  rw [ExtractFileName, hcut]

/-- What the match of `n` bytes takes off the source. -/
theorem take_matched (n : ℕ) (input : Bytes) : input.take (input.length - (input.drop n).length) = input.take n := by
  rw [List.length_drop, List.take_eq_take_iff]
  omega

theorem otherRule_fileLine {cond : Cond} {input : Bytes} (h : (otherRule cond input).2 = .fileLineRules) :
    cond = .fileLineRules := by
  unfold otherRule at h
  split at h
  all_goals first
    | rfl
    | cases h
    | split at h <;> cases h

/-- **One match**: a marker is begun, or ended, or something else is matched. -/
theorem step_cases {base : Bytes} {w w' : Watch} (h : w.step base = .ok w') :
    (∃ digits n, startsMarker w.rest w.scan = some digits ∧ w' = ⟨w.rest.drop n,
        { (matched n .fileLineRules w.rest w.scan).2 with RealLineNumber := digits ++ [32, 34] },
        w.line + (w.rest.take n).count 10, w.last, w.baseSeen⟩) ∨
      (∃ name flag text n, endsMarker w.rest w.scan = some (name, flag, text) ∧ n = name.length + 1 + text.length ∧
        w' = ⟨w.rest.drop n, markerAction base name flag text (matched n .initial w.rest w.scan).2,
          w.line + (w.rest.take n).count 10,
          some ⟨w.line + (w.rest.take n).count 10, digitsValue (w.scan.RealLineNumber.takeWhile isdigit), name, flag, w.baseSeen⟩,
          w.baseSeen || decide (flag = .none ∧ name = [])⟩) ∨
      ∃ n cond, (cond = .fileLineRules → w.scan.cond = .fileLineRules) ∧
        w' = ⟨w.rest.drop n, (matched n cond w.rest w.scan).2, w.line + (w.rest.take n).count 10, w.last, w.baseSeen⟩ := by
  rw [Watch.step, lexStep] at h
  cases hstart : startsMarker w.rest w.scan with
  | some digits =>
    have hend : endsMarker w.rest w.scan = none := by
      rw [startsMarker] at hstart
      rw [endsMarker]
      split at hstart
      · next hcond => rw [if_neg (by rw [hcond.1]; decide)]
      · cases hstart
    rw [hstart] at h
    dsimp only at h
    split at h
    · rw [outcome_error_bind] at h
      cases h
    · rw [outcome_ok_bind, hend] at h
      dsimp only [matched] at h
      rw [take_matched] at h
      exact .inl ⟨digits, digits.length + 4, rfl, (Except.ok.inj h).symm⟩
  | none =>
    rw [hstart] at h
    dsimp only at h
    cases hend : endsMarker w.rest w.scan with
    | some marker =>
      obtain ⟨name, flag, text⟩ := marker
      rw [hend] at h
      rw [outcome_ok_bind] at h
      dsimp only [matched] at h
      rw [take_matched] at h
      exact .inr (.inl ⟨name, flag, text, _, rfl, rfl, (Except.ok.inj h).symm⟩)
    | none =>
      rw [hend] at h
      rw [outcome_ok_bind] at h
      dsimp only [matched] at h
      rw [take_matched] at h
      refine .inr (.inr ⟨_, _, ?_, (Except.ok.inj h).symm⟩)
      exact otherRule_fileLine

/-! ### The last marker -/

/-- What the number of a marker adds to the lines below it. -/
def Seen.shift (m : Seen) : Int32 := if m.flag = .leave then toInt m.number - 1 else 0

/-- The file that `FileLineManager` has for a marker. -/
def Seen.file (base : Bytes) (m : Seen) : Bytes :=
  if m.flag = .none ∧ m.name = [] then base
  else dosName (if cutName m.name = [] then (if m.baseSeen then base else []).take PATH_MAX else cutName m.name)

/-- The scanner is in a line below the marker. -/
structure Follows (base : Bytes) (m : Seen) (line : ℕ) (s : Scan) : Prop where
  before : m.line ≤ line
  offset : s.yylineno - s.handler.iOffsetLineNumber = m.shift + Int32.ofNat (line - m.line)
  file : s.handler.iCurrentFileName = m.file base

/-- The invariant of the run. -/
structure Tracks (base : Bytes) (w : Watch) : Prop where
  baseFile : w.scan.handler.iBaseFileName = if w.baseSeen then base else []
  number : w.scan.cond = .fileLineRules →
    ∃ digits, w.scan.RealLineNumber = digits ++ [32, 34] ∧ digits ≠ [] ∧ ∀ c ∈ digits, isdigit c = true
  last : ∀ m, w.last = some m → Follows base m w.line w.scan

theorem tracks_start (base text : Bytes) : Tracks base (Watch.start text) := by
  refine ⟨rfl, ?_, ?_⟩
  · intro h
    cases h
  · intro m h
    cases h

theorem Follows.matched {base : Bytes} {m : Seen} {line : ℕ} {s : Scan} (h : Follows base m line s) (n : ℕ) (cond : Cond)
    (input : Bytes) : Follows base m (line + (input.take n).count 10) (FileLine.matched n cond input s).2 := by
  obtain ⟨hbefore, hoffset, hfile⟩ := h
  refine ⟨by omega, ?_, hfile⟩
  have hcount : line + (input.take n).count 10 - m.line = (line - m.line) + (input.take n).count 10 := by omega
  rw [hcount, Int32.ofNat_add]
  show s.yylineno + Int32.ofNat ((input.take n).count 10) - s.handler.iOffsetLineNumber = _
  grind

theorem atoi_digits {digits : Bytes} (hne : digits ≠ []) (hdigits : ∀ c ∈ digits, isdigit c = true) :
    atoi (digits ++ [32, 34]) = toInt (digitsValue digits) ∧ (digits ++ [32, 34]).takeWhile isdigit = digits := by
  have htake : (digits ++ [32, 34]).takeWhile isdigit = digits := by
    rw [List.takeWhile_append_of_pos hdigits]
    exact List.append_nil _
  refine ⟨?_, htake⟩
  obtain ⟨d, ds, rfl⟩ := List.exists_cons_of_ne_nil hne
  obtain ⟨hspace, hminus, hplus⟩ := not_isspace_of_isdigit (hdigits d List.mem_cons_self)
  rw [List.cons_append] at htake ⊢
  rw [atoi, scanInt, skipSpaces_cons hspace]
  simp only [List.head?_cons, Option.some.injEq, hminus, hplus, or_self, if_false, htake]
  rfl

/-- **A marker** sets the line and the file. -/
theorem follows_marker {base : Bytes} {s : Scan} {digits name text : Bytes} {flag : Flag} {seen : Bool} (line : ℕ)
    (hbase : s.handler.iBaseFileName = if seen then base else []) (hreal : s.RealLineNumber = digits ++ [32, 34])
    (hne : digits ≠ []) (hdigits : ∀ c ∈ digits, isdigit c = true) (hname : 34 ∉ name) :
    Follows base ⟨line, digitsValue digits, name, flag, seen⟩ line (markerAction base name flag text s) := by
  rw [markerAction]
  by_cases hfirst : flag = .none ∧ name = []
  · rw [if_pos hfirst]
    refine ⟨le_rfl, ?_, ?_⟩
    · have hflag : ¬ flag = .leave := by rw [hfirst.1]; decide
      show s.yylineno - s.yylineno = Seen.shift _ + Int32.ofNat (line - line)
      rw [Seen.shift, if_neg hflag, Nat.sub_self]
      grind
    · rw [Seen.file, if_pos hfirst]
      rfl
  · rw [if_neg hfirst]
    have hfile : (s.handler.ExtractFileName (name ++ 34 :: text)) =
        Seen.file base ⟨line, digitsValue digits, name, flag, seen⟩ := by
      rw [ExtractFileName_eq _ hname, hbase, Seen.file, if_neg hfirst]
    dsimp only
    by_cases hleave : flag = .leave
    · rw [if_pos hleave]
      refine ⟨le_rfl, ?_, hfile⟩
      show s.yylineno + 1 - (s.yylineno + 1 - atoi s.RealLineNumber + 1) = Seen.shift _ + Int32.ofNat (line - line)
      rw [Seen.shift, if_pos hleave, hreal, (atoi_digits hne hdigits).1, Nat.sub_self]
      grind
    · rw [if_neg hleave]
      refine ⟨le_rfl, ?_, hfile⟩
      show s.yylineno + 1 - (s.yylineno + 1) = Seen.shift _ + Int32.ofNat (line - line)
      rw [Seen.shift, if_neg hleave, Nat.sub_self]
      grind

theorem not_mem_name {input name text : Bytes} {flag : Flag} (h : markerEnd input = some (name, flag, text)) : 34 ∉ name := by
  rw [markerEnd] at h
  split at h
  · cases h
  · obtain ⟨f, -, hf⟩ := Option.map_eq_some_iff.mp h
    obtain ⟨rfl, -⟩ := Prod.mk.inj hf
    intro hmem
    simpa using List.mem_takeWhile_imp hmem

theorem digits_start {input digits : Bytes} (h : markerStart input = some digits) :
    digits ≠ [] ∧ ∀ c ∈ digits, isdigit c = true := by
  rw [markerStart.eq_def] at h
  split at h
  · split at h
    · next hboth =>
      rw [← Option.some.inj h]
      exact ⟨hboth.1, fun c hc => List.mem_takeWhile_imp hc⟩
    · cases h
  · cases h

/-- **One match keeps the invariant.** -/
theorem Tracks.step {base : Bytes} {w w' : Watch} (h : Tracks base w) (hstep : w.step base = .ok w') : Tracks base w' := by
  rcases step_cases hstep with ⟨digits, n, hstart, rfl⟩ | ⟨name, flag, text, n, hend, -, rfl⟩ | ⟨n, cond, hcond, rfl⟩
  · refine ⟨h.baseFile, ?_, ?_⟩
    · rintro -
      rw [startsMarker] at hstart
      split at hstart
      · obtain ⟨hne, hdigits⟩ := digits_start hstart
        exact ⟨digits, rfl, hne, hdigits⟩
      · cases hstart
    · intro m hm
      obtain ⟨hbefore, hoffset, hfile⟩ := (h.last m hm).matched n .fileLineRules w.rest
      exact ⟨hbefore, hoffset, hfile⟩
  · rw [endsMarker] at hend
    split at hend
    · next hcond =>
      obtain ⟨digits, hreal, hne, hdigits⟩ := h.number hcond
      have hname := not_mem_name hend
      rw [hreal, (atoi_digits hne hdigits).2]
      refine ⟨?_, ?_, ?_⟩
      · show (markerAction base name flag text (matched n .initial w.rest w.scan).2).handler.iBaseFileName = _
        have hbase : (matched n .initial w.rest w.scan).2.handler.iBaseFileName = if w.baseSeen then base else [] := h.baseFile
        rw [markerAction]
        by_cases hfirst : flag = .none ∧ name = []
        · rw [if_pos hfirst, decide_eq_true hfirst, Bool.or_true]
          rfl
        · rw [if_neg hfirst, decide_eq_false hfirst, Bool.or_false]
          dsimp only
          split
          · exact hbase
          · exact hbase
      · intro hinitial
        have hcond' : (markerAction base name flag text (matched n .initial w.rest w.scan).2).cond = .initial := by
          rw [markerAction]
          split
          · rfl
          · rfl
        rw [hcond'] at hinitial
        cases hinitial
      · intro m hm
        obtain rfl := Option.some.inj hm
        exact follows_marker _ h.baseFile hreal hne hdigits hname
    · cases hend
  · refine ⟨h.baseFile, ?_, ?_⟩
    · intro hfile
      exact h.number (hcond hfile)
    · intro m hm
      exact (h.last m hm).matched n cond w.rest

/-- **Every run keeps it.** -/
theorem Tracks.run {base : Bytes} {w w' : Watch} {n : ℕ} (h : Tracks base w) (hrun : w.run base n = .ok w') : Tracks base w' := by
  induction n generalizing w with
  | zero =>
    rw [← Except.ok.inj hrun]
    exact h
  | succ n ih =>
    obtain ⟨w₁, hstep, hrest⟩ := bind_eq_ok.mp hrun
    exact ih (h.step hstep) hrest

/-! ### The line -/

theorem bmod_int (x : ℤ) : x.bmod 4294967296 =
    if x % 4294967296 < 2147483648 then x % 4294967296 else x % 4294967296 - 4294967296 := Int.bmod_def x 4294967296

theorem toInt_shift (m : Seen) {k : ℕ} (hk : 0 < k) :
    (m.shift + Int32.ofNat k).toInt = (m.number : ℤ) + k - 1 ↔
      (m.flag = .leave ∨ m.number = 1) ∧ (m.number : ℤ) + k - 1 < 2147483648 := by
  rw [Seen.shift]
  by_cases hleave : m.flag = .leave
  · have hval : toInt m.number - 1 + Int32.ofNat k =
        Int32.ofInt (max (-2 ^ 63) (min (m.number : ℤ) (2 ^ 63 - 1)) - 1 + k) := by
      rw [Int32.ofInt_add, Int32.ofInt_sub, toInt]
      rfl
    rw [if_pos hleave, hval]
    have hmod : (Int32.ofInt (max (-2 ^ 63) (min (m.number : ℤ) (2 ^ 63 - 1)) - 1 + k)).toInt =
      (max (-2 ^ 63) (min (m.number : ℤ) (2 ^ 63 - 1)) - 1 + k).bmod 4294967296 := Int32.toInt_ofInt
    rw [hmod, bmod_int]
    constructor
    · intro h
      refine ⟨.inl hleave, ?_⟩
      split at h
      · omega
      · omega
    · rintro ⟨-, hlt⟩
      have hmin : max (-2 ^ 63) (min (m.number : ℤ) (2 ^ 63 - 1)) = m.number := by omega
      rw [hmin, if_pos (by omega)]
      omega
  · have hzero : (0 : Int32) + Int32.ofNat k = Int32.ofNat k := by grind
    have hmod : (Int32.ofNat k).toInt = (k : ℤ).bmod 4294967296 := Int32.toInt_ofNat'
    rw [if_neg hleave, hzero, hmod, bmod_int]
    constructor
    · intro h
      split at h
      · exact ⟨.inr (by omega), by omega⟩
      · omega
    · rintro ⟨hleave' | hone, hlt⟩
      · exact absurd hleave' hleave
      · rw [hone] at hlt ⊢
        rw [if_pos (by omega)]
        omega

/-! ### The file -/

theorem length_dosName (name : Bytes) : (dosName name).length = name.length := List.length_map ..

theorem dosName_dosName (name : Bytes) : dosName (dosName name) = dosName name := by
  rw [dosName, dosName, List.map_map]
  refine List.map_congr_left fun c _ => ?_
  show (if (if c = 47 then 92 else c) = 47 then 92 else if c = 47 then 92 else c) = if c = 47 then (92 : UInt8) else c
  by_cases hc : c = 47
  · rw [if_pos hc]
    rfl
  · rw [if_neg hc, if_neg hc]

theorem sameFile_take (name : Bytes) (n : ℕ) : SameFile (name.take n) name ↔ name.length ≤ n := by
  constructor
  · intro h
    have hlen := congrArg List.length h
    rw [length_dosName, length_dosName, List.length_take] at hlen
    omega
  · intro h
    rw [List.take_of_length_le h]
    rfl

theorem sameFile_dosName (f f' : Bytes) : SameFile (dosName f) f' ↔ SameFile f f' := by
  rw [SameFile, dosName_dosName, SameFile]

theorem not_mem_of_sameFile {f f' : Bytes} (h : SameFile f f') (hf : 0 ∉ f) : 0 ∉ f' := by
  intro hmem
  have hdos : (0 : UInt8) ∈ dosName f' := List.mem_map.mpr ⟨0, hmem, rfl⟩
  rw [← h] at hdos
  obtain ⟨c, hc, hzero⟩ := List.mem_map.mp hdos
  split at hzero
  · cases hzero
  · exact hf (hzero ▸ hc)

theorem not_mem_cutName (name : Bytes) : 0 ∉ cutName name := by
  intro hmem
  simpa using List.mem_takeWhile_imp (List.mem_of_mem_take hmem)

theorem cutName_of_not_mem {name : Bytes} (h : 0 ∉ name) : cutName name = name.take PATH_MAX := by
  have hwhile : readCString name = name := by
    refine List.takeWhile_eq_self_iff.mpr fun c hc => ?_
    exact decide_eq_true fun (heq : c = 0) => h (heq ▸ hc)
  rw [cutName, hwhile]

/-- When the scanner names the file that the line is of. -/
theorem sameFile_file (base : CString) (m : Seen) : SameFile (m.file base.chars) (m.named base.chars) ↔
    (m.name ≠ [] → 0 ∉ m.name ∧ m.name.length ≤ PATH_MAX) ∧
      (m.name = [] → m.flag ≠ .none → base.chars.length ≤ PATH_MAX ∧ (m.baseSeen = true ∨ base.chars = [])) := by
  rw [Seen.file, Seen.named]
  by_cases hname : m.name = []
  · rw [if_pos hname]
    by_cases hflag : m.flag = .none
    · rw [if_pos ⟨hflag, hname⟩]
      exact iff_of_true rfl ⟨fun hne => absurd hname hne, fun _ hne => absurd hflag hne⟩
    · have hcut : cutName m.name = [] := by rw [hname]; rfl
      rw [if_neg fun h => hflag h.1, if_pos hcut, sameFile_dosName]
      cases hseen : m.baseSeen with
      | true =>
        rw [if_pos rfl, sameFile_take]
        exact ⟨fun h => ⟨fun hne => absurd hname hne, fun _ _ => ⟨h, .inl rfl⟩⟩, fun h => (h.2 hname hflag).1⟩
      | false =>
        rw [if_neg Bool.false_ne_true, List.take_nil]
        constructor
        · intro h
          have hlen := congrArg List.length h
          rw [length_dosName, length_dosName, List.length_nil] at hlen
          exact ⟨fun hne => absurd hname hne, fun _ _ => ⟨by omega, .inr (List.length_eq_zero_iff.mp hlen.symm)⟩⟩
        · intro h
          obtain ⟨-, hseen' | hbase⟩ := h.2 hname hflag
          · cases hseen'
          · rw [hbase]
            rfl
  · rw [if_neg hname, if_neg fun h => hname h.2, sameFile_dosName]
    constructor
    · intro h
      have hnul : 0 ∉ m.name := by
        refine not_mem_of_sameFile h ?_
        split
        · intro hmem
          have hbase := List.mem_of_mem_take hmem
          split at hbase
          · exact base.noNul hbase
          · cases hbase
        · exact not_mem_cutName _
      refine ⟨fun _ => ⟨hnul, ?_⟩, fun heq => absurd heq hname⟩
      have hcut : cutName m.name ≠ [] := by
        rw [cutName_of_not_mem hnul]
        intro hnil
        rcases List.take_eq_nil_iff.mp hnil with h0 | h0
        · cases h0
        · exact hname h0
      rw [if_neg hcut, cutName_of_not_mem hnul] at h
      exact (sameFile_take _ _).mp h
    · intro h
      obtain ⟨hnul, hlen⟩ := h.1 hname
      have hcut : cutName m.name = m.name := by rw [cutName_of_not_mem hnul, List.take_of_length_le hlen]
      rw [hcut, if_neg hname]
      rfl

/-- **When an error is reported where the last marker says.** -/
theorem reportsAs_iff (base : CString) {text : Bytes} {n : ℕ} {w : Watch} {m : Seen}
    (hrun : (Watch.start text).run base.chars n = .ok w) (hlast : w.last = some m) (hbelow : m.line < w.line) :
    ReportsAs base.chars m w ↔
      (m.flag = .leave ∨ m.number = 1) ∧ (m.number : ℤ) + ((w.line : ℤ) - m.line) - 1 < 2147483648 ∧
        (m.name ≠ [] → 0 ∉ m.name ∧ m.name.length ≤ PATH_MAX) ∧
        (m.name = [] → m.flag ≠ .none → base.chars.length ≤ PATH_MAX ∧ (m.baseSeen = true ∨ base.chars = [])) := by
  obtain ⟨hbefore, hoffset, hfile⟩ := ((tracks_start base.chars text).run hrun).last m hlast
  have hcast : ((w.line - m.line : ℕ) : ℤ) = (w.line : ℤ) - m.line := by omega
  have hline := toInt_shift m (k := w.line - m.line) (by omega)
  rw [← hoffset, hcast] at hline
  rw [ReportsAs, GetCurrentFile, hfile, sameFile_file, GetErrorLine, hline]
  constructor
  · rintro ⟨hname, hnumber, hlt⟩
    exact ⟨hnumber, hlt, hname⟩
  · rintro ⟨hnumber, hlt, hname⟩
    exact ⟨hname, hnumber, hlt⟩

/-! ### The markers in the text -/

/-- A marker without a flag in the middle of a file, as a preprocessor writes it behind lines it leaves out. -/
def resumed : Bytes := chars "# 5 \"a.rss\"\nSTRUCT X\n"

/-- An error in the line below it is reported as one in line 1. -/
theorem resumed_reported : ∃ w m, (Watch.start resumed).run (chars "b.rss") 3 = .ok w ∧ w.last = some m ∧
    m = ⟨1, 5, chars "a.rss", .none, false⟩ ∧ w.line = 2 ∧ w.scan.handler.GetErrorLine w.scan.yylineno = 1 ∧
    ¬ ReportsAs (chars "b.rss") m w := by
  refine ⟨⟨chars "STRUCT X\n", ⟨.initial, true, 3, chars "5 \"", ⟨[], chars "a.rss", 2⟩⟩, 2,
    some ⟨1, 5, chars "a.rss", .none, false⟩, false⟩, _, by decide +kernel, rfl, rfl, rfl, by decide, ?_⟩
  rintro ⟨-, hline⟩
  exact absurd hline (by decide)

theorem first_reportsAs_iff : ∃ w m, (Watch.start (chars "# 1 \"a.rss\"\nX\n")).run (chars "b.rss") 3 = .ok w ∧
    w.last = some m ∧ (ReportsAs (chars "b.rss") m w ↔
      (m.flag = .leave ∨ m.number = 1) ∧ (m.number : ℤ) + ((w.line : ℤ) - m.line) - 1 < 2147483648 ∧
        (m.name ≠ [] → 0 ∉ m.name ∧ m.name.length ≤ PATH_MAX) ∧
        (m.name = [] → m.flag ≠ .none → (chars "b.rss").length ≤ PATH_MAX ∧ (m.baseSeen = true ∨ chars "b.rss" = []))) := by
  have hrun : (Watch.start (chars "# 1 \"a.rss\"\nX\n")).run (chars "b.rss") 3 =
      .ok ⟨chars "X\n", ⟨.initial, true, 3, chars "1 \"", ⟨[], chars "a.rss", 2⟩⟩, 2,
        some ⟨1, 1, chars "a.rss", .none, false⟩, false⟩ := by decide +kernel
  exact ⟨_, _, hrun, rfl, reportsAs_iff ⟨chars "b.rss", by decide⟩ hrun rfl (by decide)⟩

end GnuPoc.Rcomp.FileLine
