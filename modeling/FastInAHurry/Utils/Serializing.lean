import FastInAHurry.Library.CString

/-!
# The lines of the log

The embedding of `_log`, `_serialize` and `_flush` of `utils/SPSCLogger.hh`. A record holds the text
that `snprintf` stored; what the format and its arguments spell is given to `log` as a whole. What
the time zone makes of a number of seconds is a parameter, and so is everything in the location but
that its strings are strings. A local array that is not initialised is empty until it is written.

`_flush` takes the value that `snprintf` returned for the number of bytes that it stored. The value
counts the bytes the line would have needed, so the two agree only as long as the line fits, and
whether it does is a sum over the fields. Two of them are bounded by arrays they are cut to on the
way, one by the type of its number, and the name of the file by what file systems allow.
-/

namespace FastInAHurry

open CString

namespace SPSCLogger

inductive Level where
  | info
  | debug
  | error
  | warn
deriving DecidableEq, Repr

/-- `std::source_location`. -/
structure Location where
  fileName : List Char
  functionName : List Char
  line : UInt32

/-- `Record::BUFF_SIZE`. -/
def buffSize : ℕ := 512

structure Record where
  buff : List Char
  tsNs : UInt64
  loc : Location
  buffSize : UInt16
  level : Level

/-- The fields of `std::tm` that are printed. -/
structure Tm where
  tmHour : ℤ
  tmMin : ℤ
  tmSec : ℤ
  tmZone : List Char

def colorTerminator : List Char := "\x1b[0m".toList

def levelToString : Level → List Char
  | .info => "INFO".toList
  | .debug => "DEBUG".toList
  | .error => "ERROR".toList
  | .warn => "WARN".toList

def levelToColor : Level → List Char
  | .info => "\x1b[32m".toList
  | .debug => "\x1b[36m".toList
  | .error => "\x1b[31m".toList
  | .warn => "\x1b[33m".toList

/-- `_log` at the time `tsNs`, for what the format and its arguments spell: the record pushed. -/
def log (level : Level) (loc : Location) (tsNs : UInt64) (text : List Char) : Record :=
  let (buff, n) := snprintf [] buffSize text
  { buff, tsNs, loc, level, buffSize := min (UInt16.ofInt n) (UInt16.ofNat (buffSize - 1)) }

/-! ## The fields of a line -/

def funcName (rec : Record) : List Char :=
  let funcBuf := cstr (snprintf [] 128 rec.loc.functionName).1
  let funcBuf :=
    match strrchr funcBuf '(' with
    | some paren => funcBuf.take paren
    | none => funcBuf
  afterLast funcBuf ':'

def time (localtime : UInt64 → Tm) (rec : Record) : List Char :=
  let sSinceEpoch := rec.tsNs / 1000000000
  let ns := rec.tsNs % 1000000000
  let tmBuf := localtime sSinceEpoch
  let text := decimal 2 tmBuf.tmHour ++ ":".toList ++ decimal 2 tmBuf.tmMin ++ ":".toList ++
    decimal 2 tmBuf.tmSec ++ " ".toList ++ decimal 9 ns.toNat ++ " ".toList ++ tmBuf.tmZone
  cstr (snprintf [] 24 text).1

/-- What the format of `_serialize` and its arguments spell. -/
def lineText (localtime : UInt64 → Tm) (rec : Record) : List Char :=
  let filename := afterLast rec.loc.fileName '/'
  levelToColor rec.level ++ "[".toList ++ levelToString rec.level ++ "]\t[".toList ++
    time localtime rec ++ "][".toList ++ filename ++ " ".toList ++ funcName rec ++ ":".toList ++
    decimal 0 rec.loc.line.toNat ++ "]\t".toList ++ colorTerminator ++ " ".toList ++ cstr rec.buff

/-! ## Writing lines -/

/-- `_serialize(out, rec, len)`: the array, and the value returned. -/
def serialize (localtime : UInt64 → Tm) (out : List Char) (rec : Record) (len : ℕ) :
    List Char × ℤ :=
  snprintf out len (lineText localtime rec)

/-- `sizeof(line)`. -/
def lineSize : ℕ := buffSize + 512

/-- The loop of `_flush` for what is in `line`: the bytes written to `stdout`, and `none` where
`fwrite` reads behind the array. -/
def flush (localtime : UInt64 → Tm) : List Char → List Record → Option (List Char)
  | _, [] => some []
  | line, rec :: recs =>
    let (line', writtenBytes) := serialize localtime line rec lineSize
    (fwrite line' (if writtenBytes < 0 then 0 else writtenBytes.toNat)).bind fun bytes ↦
      (flush localtime line' recs).map (bytes ++ ·)

/-! ## The sum of the fields -/

variable {localtime : UInt64 → Tm} {rec : Record}

theorem length_levelToColor (level : Level) : (levelToColor level).length = 5 := by
  cases level <;> rfl

theorem length_levelToString_le (level : Level) : (levelToString level).length ≤ 5 := by
  cases level <;> decide

theorem length_time_le (localtime : UInt64 → Tm) (rec : Record) :
    (time localtime rec).length ≤ 23 := length_cstr_snprintf_le

/-- Cutting the copy of the name only makes it shorter. -/
theorem length_funcName_le (rec : Record) : (funcName rec).length ≤ 127 := by
  have hcopy : (cstr (snprintf [] 128 rec.loc.functionName).1).length ≤ 127 :=
    length_cstr_snprintf_le
  rw [funcName]
  refine (length_afterLast_le _ _).trans ?_
  split
  · exact (List.length_take_le' _ _).trans hcopy
  · exact hcopy

theorem length_line_le (line : UInt32) : (decimal 0 line.toNat).length ≤ 10 := by
  have hlt : line.toNat < 10 ^ 10 := line.toNat_lt.trans (by decide)
  have hdigits : (Nat.toDigits 10 line.toNat).length ≤ 10 :=
    (Nat.length_toDigits_le_iff (by decide) (by decide)).mpr hlt
  have hsign : ¬(line.toNat : ℤ) < 0 := by omega
  rw [decimal, if_neg hsign, Nat.zero_sub, Nat.zero_sub]
  exact hdigits

/-- **The longest line.** -/
theorem length_lineText_le (hbuff : (cstr rec.buff).length < buffSize)
    (hfile : (afterLast rec.loc.fileName '/').length ≤ 255) :
    (lineText localtime rec).length ≤ 951 := by
  have hcolor := length_levelToColor rec.level
  have hlevel := length_levelToString_le rec.level
  have htime := length_time_le localtime rec
  have hfunc := length_funcName_le rec
  have hline := length_line_le rec.loc.line
  have hterminator : colorTerminator.length = 4 := rfl
  rw [buffSize] at hbuff
  rw [lineText]
  simp only [List.length_append]
  have hliterals : "[".toList.length + "]\t[".toList.length + "][".toList.length +
      " ".toList.length + ":".toList.length + "]\t".toList.length + " ".toList.length = 11 := rfl
  omega

/-! ## Records of the logger -/

/-- A record that `_log` pushed, from a file whose name is one that a file can have. -/
def Logged (rec : Record) : Prop :=
  ∃ level loc tsNs text, rec = log level loc tsNs text ∧
    (loc.fileName.rtakeWhile (· != '/')).length ≤ 255

theorem Logged.length_lineText_le (h : Logged rec) :
    (lineText localtime rec).length ≤ lineSize - 1 := by
  obtain ⟨level, loc, tsNs, text, rfl, hfile⟩ := h
  have hbuff : (cstr (log level loc tsNs text).buff).length ≤ buffSize - 1 :=
    length_cstr_snprintf_le
  rw [← afterLast_eq] at hfile
  exact (SPSCLogger.length_lineText_le (Nat.lt_of_le_of_lt hbuff (by decide)) hfile).trans
    (by decide)

/-- What `snprintf` says it stored is the line. -/
theorem serialize_of_logged (localtime : UInt64 → Tm) (h : Logged rec) (line : List Char) :
    (serialize localtime line rec lineSize).2 = (lineText localtime rec).length ∧
      (serialize localtime line rec lineSize).1.take (lineText localtime rec).length
        = lineText localtime rec ∧
      (line.length = lineSize → (serialize localtime line rec lineSize).1.length = lineSize) := by
  have hsize : lineSize - 1 < 2 ^ 31 := by decide
  exact snprintf_of_fits h.length_lineText_le hsize

/-- One round of the loop writes one line. -/
theorem flush_cons (localtime : UInt64 → Tm) (h : Logged rec) {line : List Char}
    (hline : line.length = lineSize) (recs : List Record) :
    flush localtime line (rec :: recs) =
      (flush localtime (serialize localtime line rec lineSize).1 recs).map
        (lineText localtime rec ++ ·) := by
  obtain ⟨hreturned, hstored, hlength⟩ := serialize_of_logged localtime h line
  have hfits : (lineText localtime rec).length ≤ lineSize - 1 := h.length_lineText_le
  have hwrite : fwrite (serialize localtime line rec lineSize).1 (lineText localtime rec).length
      = some (lineText localtime rec) := by
    rw [fwrite, if_pos (by rw [hlength hline]; omega), hstored]
  rw [flush]
  dsimp only
  rw [hreturned, if_neg (by omega), Int.toNat_natCast, hwrite]
  rfl

/-- `_flush` writes the lines of its records. -/
theorem flush_of_logged (localtime : UInt64 → Tm) {recs : List Record}
    (h : ∀ rec ∈ recs, Logged rec) {line : List Char} (hline : line.length = lineSize) :
    flush localtime line recs = some (recs.flatMap (lineText localtime)) := by
  induction recs generalizing line with
  | nil => rfl
  | cons rec recs ih =>
    have hrec : Logged rec := h rec List.mem_cons_self
    have hlength := (serialize_of_logged localtime hrec line).2.2 hline
    rw [flush_cons localtime hrec hline, ih (fun r hr ↦ h r (List.mem_cons_of_mem rec hr)) hlength]
    rfl

/-- **No line is truncated.** Whatever is in the array before, the value that `_serialize` returns
for a record of the logger is at most `sizeof(line) - 1`, and the bytes it counts are the line. So
`_flush` writes the lines of its records, and nothing else. -/
theorem flush_writes_lines (localtime : UInt64 → Tm) (recs : List Record)
    (h : ∀ rec ∈ recs, Logged rec) (line : List Char) (hline : line.length = lineSize) :
    (∀ rec ∈ recs, ∀ out : List Char,
        let (stored, returned) := serialize localtime out rec lineSize
        0 ≤ returned ∧ returned ≤ 1023 ∧ stored.take returned.toNat = lineText localtime rec) ∧
      flush localtime line recs = some (recs.flatMap (lineText localtime)) := by
  refine ⟨fun rec hrec out ↦ ?_, flush_of_logged localtime h hline⟩
  obtain ⟨hreturned, hstored, -⟩ := serialize_of_logged localtime (h rec hrec) out
  have hfits : (lineText localtime rec).length ≤ 1023 := (h rec hrec).length_lineText_le
  dsimp only
  rw [hreturned, Int.toNat_natCast]
  exact ⟨by omega, by omega, hstored⟩

/-- A time zone without an offset. -/
def utc (sSinceEpoch : UInt64) : Tm where
  tmHour := sSinceEpoch.toNat / 3600 % 24
  tmMin := sSinceEpoch.toNat / 60 % 60
  tmSec := sSinceEpoch.toNat % 60
  tmZone := "UTC".toList

def startLocation : Location where
  fileName := "src/tests/Logger_test.cc".toList
  functionName := "void fiah::start(int)".toList
  line := 7

/-- One record, an hour, a minute, a second and five nanoseconds after the epoch. -/
theorem flush_writes_lines_start :
    flush utc (List.replicate lineSize '?') [log .info startLocation 3661000000005 "up".toList] =
      some
        "\x1b[32m[INFO]\t[01:01:01 000000005 UTC][Logger_test.cc start:7]\t\x1b[0m up".toList := by
  have hlogged : ∀ rec ∈ [log .info startLocation 3661000000005 "up".toList], Logged rec := by
    intro rec hrec
    obtain rfl := List.mem_singleton.mp hrec
    exact ⟨_, _, _, _, rfl, by decide⟩
  rw [(flush_writes_lines utc _ hlogged (List.replicate lineSize '?') List.length_replicate).2]
  decide +kernel

end SPSCLogger

end FastInAHurry
