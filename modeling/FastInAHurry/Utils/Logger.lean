import FastInAHurry.Library.Merge
import FastInAHurry.Library.StdString
import FastInAHurry.Library.Turns
import Mathlib.Algebra.Order.BigOperators.Group.Finset

/-!
# The loggers of a process

The embedding of `utils/Logger.hh`. There is one logger for each tag, the class that uses it, and
each has a mutex of its own; they all write to `std::cout`. `_log` builds the whole line in a stream
of its own, takes the mutex of its logger, writes the line and gives the mutex back. The stream
inserts one character after the other, and with no lock around it two loggers may do so at the same
time.

Each thread has a list of lines to log. What the clock and the time zone say for a line is part of
it, and so is what its arguments print.

## What the output is

The characters of one logger are whole lines, but for the last one while it is being written. The
output is a merge of what the loggers have written, in which nothing but the order within each of
them is kept: lines of one class never mix, lines of two classes may.
-/

namespace FastInAHurry

open StdString Turns

namespace Logger

abbrev Str := List Char

inductive Level where
  | info
  | debug
  | error
  | warn
deriving DecidableEq, Repr

/-- The fields of `std::tm` that are printed. -/
structure Tm where
  tmHour : ℤ
  tmMin : ℤ
  tmSec : ℤ

/-- A call of `_log` by the logger of `tag`, with what its arguments print. -/
structure Message (τ : Type*) where
  tag : τ
  level : Level
  func : Str
  line : ℤ
  timeBuf : Tm
  ms : ℤ
  args : Str

def levelToString : Level → Str
  | .info => "INFO".toList
  | .debug => "DEBUG".toList
  | .error => "ERROR".toList
  | .warn => "WARN".toList

def levelToColor : Level → Str
  | .info => "\x1b[32m".toList
  | .debug => "\x1b[36m".toList
  | .error => "\x1b[31m".toList
  | .warn => "\x1b[33m".toList

/-- `(field < 10 ? "0" : "") << field`. -/
def twoDigits (field : ℤ) : Str := (if field < 10 then ['0'] else []) ++ decimal field

variable {τ θ : Type*} [DecidableEq τ] [DecidableEq θ]

omit [DecidableEq τ] in
/-- What `_log` builds, where `mName` is the name of each logger. -/
def lineText (mName : τ → Str) (m : Message τ) : Str :=
  levelToColor m.level ++ '[' :: (twoDigits m.timeBuf.tmHour ++ ':' ::
    (twoDigits m.timeBuf.tmMin ++ ':' :: (twoDigits m.timeBuf.tmSec ++ '.' ::
      (decimal m.ms ++ ']' :: '[' :: (levelToString m.level ++ ']' :: '[' ::
        (mName m.tag ++ ':' :: ':' :: (m.func ++ ':' :: (decimal m.line ++ ']' :: ' ' ::
          (m.args ++ "\x1b[0m\n".toList)))))))))

/-! ## The threads -/

/-- Where a thread stands in `_log`, with the line or what is left of it. -/
inductive Thread (τ : Type*) where
  | idle
  | built (tag : τ) (line : Str)
  | writing (tag : τ) (rest : Str)
deriving DecidableEq

structure State (τ θ : Type*) where
  mLogMutex : τ → Option θ
  cout : Str
  threads : θ → Thread τ
  /-- How many calls of `_log` each thread has finished. -/
  done : θ → ℕ
  /-- What each logger has written. -/
  stream : τ → Str
  /-- The lines of each logger in the order in which it took its mutex for them. -/
  lines : τ → List Str

def init : State τ θ where
  mLogMutex := fun _ ↦ none
  cout := []
  threads := fun _ ↦ .idle
  done := fun _ ↦ 0
  stream := fun _ ↦ []
  lines := fun _ ↦ []

/-- Move the thread `t` to the program point `q`. -/
def State.move (s : State τ θ) (t : θ) (q : Thread τ) : State τ θ :=
  { s with threads := Function.update s.threads t q }

/-- The lock guard takes the mutex of the logger for a line. -/
def State.lock (s : State τ θ) (t : θ) (tag : τ) (line : Str) : State τ θ :=
  { s.move t (.writing tag line) with
    mLogMutex := Function.update s.mLogMutex tag (some t)
    lines := Function.update s.lines tag (s.lines tag ++ [line]) }

/-- The stream inserts a character. -/
def State.put (s : State τ θ) (t : θ) (tag : τ) (c : Char) (rest : Str) : State τ θ :=
  { s.move t (.writing tag rest) with
    cout := s.cout ++ [c]
    stream := Function.update s.stream tag (s.stream tag ++ [c]) }

/-- The lock guard is destroyed, and `_log` returns. -/
def State.unlock (s : State τ θ) (t : θ) (tag : τ) : State τ θ :=
  { s.move t .idle with
    mLogMutex := Function.update s.mLogMutex tag none
    done := Function.update s.done t (s.done t + 1) }

section Fields

variable (s : State τ θ) (t : θ) (tag : τ) (line rest : Str) (c : Char)

omit [DecidableEq τ] in
@[simp] theorem move_threads (q : Thread τ) :
    (s.move t q).threads = Function.update s.threads t q := rfl

omit [DecidableEq τ] in
@[simp] theorem move_done (q : Thread τ) : (s.move t q).done = s.done := rfl

@[simp] theorem lock_threads :
    (s.lock t tag line).threads = Function.update s.threads t (.writing tag line) := rfl

@[simp] theorem lock_mLogMutex :
    (s.lock t tag line).mLogMutex = Function.update s.mLogMutex tag (some t) := rfl

@[simp] theorem lock_lines :
    (s.lock t tag line).lines = Function.update s.lines tag (s.lines tag ++ [line]) := rfl

@[simp] theorem lock_stream : (s.lock t tag line).stream = s.stream := rfl

@[simp] theorem put_threads :
    (s.put t tag c rest).threads = Function.update s.threads t (.writing tag rest) := rfl

@[simp] theorem put_mLogMutex : (s.put t tag c rest).mLogMutex = s.mLogMutex := rfl

@[simp] theorem put_lines : (s.put t tag c rest).lines = s.lines := rfl

@[simp] theorem put_stream :
    (s.put t tag c rest).stream = Function.update s.stream tag (s.stream tag ++ [c]) := rfl

@[simp] theorem unlock_threads :
    (s.unlock t tag).threads = Function.update s.threads t .idle := rfl

@[simp] theorem unlock_mLogMutex :
    (s.unlock t tag).mLogMutex = Function.update s.mLogMutex tag none := rfl

@[simp] theorem unlock_done :
    (s.unlock t tag).done = Function.update s.done t (s.done t + 1) := rfl

end Fields

/-- A thread takes a turn: it builds its next line, takes the mutex if it is free, inserts a
character, or gives the mutex back. -/
def turn (mName : τ → Str) (todo : θ → List (Message τ)) (s : State τ θ) (t : θ) : State τ θ :=
  match s.threads t with
  | .idle =>
    match (todo t)[s.done t]? with
    | none => s
    | some m => s.move t (.built m.tag (lineText mName m))
  | .built tag line =>
    match s.mLogMutex tag with
    | some _ => s
    | none => s.lock t tag line
  | .writing tag (c :: rest) => s.put t tag c rest
  | .writing tag [] => s.unlock t tag

/-- Every thread has logged all its lines. -/
def Finished (todo : θ → List (Message τ)) (s : State τ θ) : Prop :=
  ∀ t, s.threads t = .idle ∧ s.done t = (todo t).length

variable {mName : τ → Str} {todo : θ → List (Message τ)} {s : State τ θ} {t : θ}

/-! ## What a turn does -/

/-- Everything a turn of the thread `t` can do. -/
inductive Turned (mName : τ → Str) (todo : θ → List (Message τ)) (s : State τ θ) (t : θ) :
    State τ θ → Prop
  | finished (ht : s.threads t = .idle) (hm : (todo t)[s.done t]? = none) :
      Turned mName todo s t s
  | build {m : Message τ} (ht : s.threads t = .idle) (hm : (todo t)[s.done t]? = some m) :
      Turned mName todo s t (s.move t (.built m.tag (lineText mName m)))
  | wait {tag : τ} {line : Str} {holder : θ} (ht : s.threads t = .built tag line)
      (htaken : s.mLogMutex tag = some holder) : Turned mName todo s t s
  | lock {tag : τ} {line : Str} (ht : s.threads t = .built tag line)
      (hfree : s.mLogMutex tag = none) : Turned mName todo s t (s.lock t tag line)
  | put {tag : τ} {c : Char} {rest : Str} (ht : s.threads t = .writing tag (c :: rest)) :
      Turned mName todo s t (s.put t tag c rest)
  | unlock {tag : τ} (ht : s.threads t = .writing tag []) :
      Turned mName todo s t (s.unlock t tag)

theorem turned (mName : τ → Str) (todo : θ → List (Message τ)) (s : State τ θ) (t : θ) :
    Turned mName todo s t (turn mName todo s t) := by
  rw [turn]
  split
  · next ht =>
    split
    · next hm => exact .finished ht hm
    · next m hm => exact .build ht hm
  · next tag line ht =>
    split
    · next htaken => exact .wait ht htaken
    · next hfree => exact .lock ht hfree
  · next ht => exact .put ht
  · next ht => exact .unlock ht

/-! ## The invariant -/

/-- What the thread has still to write of the line it is in. -/
def Thread.rest : Thread τ → Str
  | .writing _ rest => rest
  | _ => []

/-- What is missing of the last line of a logger. -/
def State.missing (s : State τ θ) (tag : τ) : Str :=
  (s.mLogMutex tag).elim [] fun t ↦ (s.threads t).rest

/-- How many lines the thread has begun. -/
def State.begun (s : State τ θ) (t : θ) : ℕ :=
  match s.threads t with
  | .writing _ _ => s.done t + 1
  | _ => s.done t

/-- The lines of the first `n` messages that go to the logger of `tag`. -/
def linesOf (mName : τ → Str) (msgs : List (Message τ)) (tag : τ) : List Str :=
  (msgs.filter fun m ↦ decide (m.tag = tag)).map (lineText mName)

structure Inv (mName : τ → Str) (todo : θ → List (Message τ)) (s : State τ θ) : Prop where
  /-- A mutex is held by the one thread that writes the line. -/
  holder : ∀ tag t, s.mLogMutex tag = some t ↔ ∃ rest, s.threads t = .writing tag rest
  output : Merge s.stream s.cout
  whole : ∀ tag, s.stream tag ++ s.missing tag = (s.lines tag).flatten
  merge : ∀ tag, Merge (fun t ↦ linesOf mName ((todo t).take (s.begun t)) tag) (s.lines tag)
  built : ∀ t tag line, s.threads t = .built tag line →
    ∃ m, (todo t)[s.done t]? = some m ∧ tag = m.tag ∧ line = lineText mName m
  begun_le : ∀ t, s.begun t ≤ (todo t).length

theorem Inv.init : Inv mName todo (init : State τ θ) where
  holder tag t := by simp [Logger.init]
  output := Merge.nil
  whole _ := rfl
  merge tag := by
    have hnil : (fun t ↦ linesOf mName ((todo t).take ((Logger.init : State τ θ).begun t)) tag)
        = fun _ ↦ [] := by
      funext t
      rfl
    rw [hnil]
    exact Merge.nil
  built t tag line h := by cases h
  begun_le _ := Nat.zero_le _

section Frame

variable {u : State τ θ} {tag : τ} {q : Thread τ}

omit [DecidableEq τ] in
/-- A logger whose holder is another thread misses what it missed before. -/
theorem missing_eq_of_ne (hmutex : u.mLogMutex tag = s.mLogMutex tag)
    (hthreads : u.threads = Function.update s.threads t q) (hne : s.mLogMutex tag ≠ some t) :
    u.missing tag = s.missing tag := by
  rw [State.missing, State.missing, hmutex, hthreads]
  cases hholder : s.mLogMutex tag with
  | none => rfl
  | some t' =>
    have ht' : t' ≠ t := fun heq ↦ hne (heq ▸ hholder)
    rw [Option.elim_some, Option.elim_some, Function.update_of_ne ht']

omit [DecidableEq τ] [DecidableEq θ] in
/-- The thread that holds the mutex of a logger is the one that the logger waits for. -/
theorem missing_eq_rest (h : s.mLogMutex tag = some t) : s.missing tag = (s.threads t).rest := by
  rw [State.missing, h, Option.elim_some]

omit [DecidableEq τ] [DecidableEq θ] in
theorem missing_of_free (h : s.mLogMutex tag = none) : s.missing tag = [] := by
  rw [State.missing, h, Option.elim_none]

omit [DecidableEq τ] in
theorem begun_of_ne {t' : θ} (hthreads : u.threads = Function.update s.threads t q)
    (hdone : u.done t' = s.done t') (ht' : t' ≠ t) : u.begun t' = s.begun t' := by
  rw [State.begun, State.begun, hthreads, hdone, Function.update_of_ne ht']

end Frame

variable (mName) in
theorem linesOf_take_succ {msgs : List (Message τ)} {n : ℕ} {m : Message τ}
    (hm : msgs[n]? = some m) (tag : τ) :
    linesOf mName (msgs.take (n + 1)) tag
      = linesOf mName (msgs.take n) tag ++ if m.tag = tag then [lineText mName m] else [] := by
  rw [List.take_add_one, hm, Option.toList_some, linesOf, List.filter_append, List.map_append,
    linesOf]
  by_cases htag : m.tag = tag <;> simp [htag]

/-- A thread that is not writing holds no mutex. -/
theorem Inv.not_holder (h : Inv mName todo s) (ht : ∀ tag rest, s.threads t ≠ .writing tag rest)
    (tag : τ) : s.mLogMutex tag ≠ some t := by
  intro hholder
  obtain ⟨rest, hrest⟩ := (h.holder tag t).mp hholder
  exact ht tag rest hrest

/-- A thread that is writing holds the mutex of one logger. -/
theorem Inv.not_other (h : Inv mName todo s) {tag tag' : τ} {rest : Str}
    (ht : s.threads t = .writing tag rest) (hne : tag' ≠ tag) : s.mLogMutex tag' ≠ some t := by
  intro hholder
  obtain ⟨rest', ht'⟩ := (h.holder tag' t).mp hholder
  exact hne (Thread.writing.inj (ht'.symm.trans ht)).1

theorem Inv.build (h : Inv mName todo s) {m : Message τ} (ht : s.threads t = .idle)
    (hm : (todo t)[s.done t]? = some m) :
    Inv mName todo (s.move t (.built m.tag (lineText mName m))) := by
  have hself : (s.move t (.built m.tag (lineText mName m))).threads t =
      .built m.tag (lineText mName m) := Function.update_self ..
  have hother : ∀ t', t' ≠ t →
      (s.move t (.built m.tag (lineText mName m))).threads t' = s.threads t' := fun t' ht' ↦
    Function.update_of_ne ht' ..
  have hnot := h.not_holder (t := t) fun tag rest ↦ by
    rw [ht]
    exact nofun
  have hbegun : (s.move t (.built m.tag (lineText mName m))).begun = s.begun := by
    funext t'
    by_cases heq : t' = t
    · subst heq
      rw [State.begun, State.begun, hself, ht]
      rfl
    · exact begun_of_ne (s := s) rfl rfl heq
  constructor
  · intro tag t'
    by_cases heq : t' = t
    · subst heq
      rw [hself]
      exact iff_of_false (hnot tag) fun ⟨rest, hrest⟩ ↦ nomatch hrest
    · rw [hother t' heq]
      exact h.holder tag t'
  · exact h.output
  · intro tag
    have hmissing := missing_eq_of_ne (s := s) (u := s.move t (.built m.tag (lineText mName m)))
      rfl rfl (hnot tag)
    rw [hmissing]
    exact h.whole tag
  · rw [hbegun]
    exact h.merge
  · intro t' tag line ht'
    by_cases heq : t' = t
    · subst heq
      rw [hself] at ht'
      cases ht'
      exact ⟨m, hm, rfl, rfl⟩
    · rw [hother t' heq] at ht'
      exact h.built t' tag line ht'
  · rw [hbegun]
    exact h.begun_le

theorem Inv.lock (h : Inv mName todo s) {tag : τ} {line : Str} (ht : s.threads t = .built tag line)
    (hfree : s.mLogMutex tag = none) : Inv mName todo (s.lock t tag line) := by
  obtain ⟨m, hm, rfl, rfl⟩ := h.built t tag line ht
  have hself : (s.lock t m.tag (lineText mName m)).threads t = .writing m.tag (lineText mName m) :=
    Function.update_self ..
  have hother : ∀ t', t' ≠ t →
      (s.lock t m.tag (lineText mName m)).threads t' = s.threads t' := fun t' ht' ↦
    Function.update_of_ne ht' ..
  have hnot := h.not_holder (t := t) fun tag rest ↦ by
    rw [ht]
    exact nofun
  have hlt : s.done t < (todo t).length := (List.getElem?_eq_some_iff.mp hm).1
  have hbefore : s.begun t = s.done t := by rw [State.begun, ht]
  have hafter : (s.lock t m.tag (lineText mName m)).begun t = s.done t + 1 := by
    rw [State.begun, hself]
    rfl
  have hbegun : ∀ t', t' ≠ t → (s.lock t m.tag (lineText mName m)).begun t' = s.begun t' :=
    fun t' ht' ↦ begun_of_ne (s := s) rfl rfl ht'
  constructor
  · intro tag t'
    by_cases htag : tag = m.tag
    · subst htag
      rw [lock_mLogMutex, Function.update_self]
      by_cases heq : t' = t
      · subst heq
        exact iff_of_true rfl ⟨_, hself⟩
      · refine iff_of_false (fun hholder ↦ heq (Option.some.inj hholder).symm) fun hwriting ↦ ?_
        have hwriting' : ∃ rest, s.threads t' = .writing m.tag rest := by
          rwa [← hother t' heq]
        rw [(h.holder m.tag t').mpr hwriting'] at hfree
        cases hfree
    · rw [lock_mLogMutex, Function.update_of_ne htag, h.holder]
      by_cases heq : t' = t
      · subst heq
        rw [ht]
        refine iff_of_false (fun ⟨rest, hrest⟩ ↦ nomatch hrest) fun ⟨rest, hrest⟩ ↦ ?_
        exact htag (Thread.writing.inj (hself.symm.trans hrest)).1.symm
      · rw [hother t' heq]
  · exact h.output
  · intro tag
    by_cases htag : tag = m.tag
    · subst htag
      have hwhole := h.whole m.tag
      rw [missing_of_free hfree, List.append_nil] at hwhole
      rw [missing_eq_rest (t := t) (Function.update_self ..), hself, lock_stream, lock_lines,
        Function.update_self, List.flatten_concat, ← hwhole]
      rfl
    · rw [missing_eq_of_ne (s := s) (Function.update_of_ne htag ..) rfl (hnot tag), lock_stream,
        lock_lines, Function.update_of_ne htag]
      exact h.whole tag
  · intro tag
    have hline := linesOf_take_succ mName hm tag
    by_cases htag : tag = m.tag
    · subst htag
      rw [if_pos rfl] at hline
      rw [lock_lines, Function.update_self]
      refine (h.merge m.tag).push (p := t) ?_ fun t' ht' ↦ ?_
      · exact (congrArg (fun n ↦ linesOf mName ((todo t).take n) m.tag) hafter).trans
          (hbefore ▸ hline)
      · exact congrArg (fun n ↦ linesOf mName ((todo t').take n) m.tag) (hbegun t' ht')
    · rw [if_neg (Ne.symm htag), List.append_nil] at hline
      rw [lock_lines, Function.update_of_ne htag]
      have hsame : (fun t' ↦ linesOf mName
          ((todo t').take ((s.lock t m.tag (lineText mName m)).begun t')) tag)
            = fun t' ↦ linesOf mName ((todo t').take (s.begun t')) tag := by
        funext t'
        by_cases heq : t' = t
        · subst heq
          exact (congrArg (fun n ↦ linesOf mName ((todo t').take n) tag) hafter).trans
            (hbefore ▸ hline)
        · exact congrArg (fun n ↦ linesOf mName ((todo t').take n) tag) (hbegun t' heq)
      exact hsame ▸ h.merge tag
  · intro t' tag line ht'
    by_cases heq : t' = t
    · subst heq
      rw [hself] at ht'
      cases ht'
    · rw [hother t' heq] at ht'
      exact h.built t' tag line ht'
  · intro t'
    by_cases heq : t' = t
    · subst heq
      rw [hafter]
      exact hlt
    · rw [hbegun t' heq]
      exact h.begun_le t'

theorem Inv.put (h : Inv mName todo s) {tag : τ} {c : Char} {rest : Str}
    (ht : s.threads t = .writing tag (c :: rest)) : Inv mName todo (s.put t tag c rest) := by
  have hself : (s.put t tag c rest).threads t = .writing tag rest := Function.update_self ..
  have hother : ∀ t', t' ≠ t → (s.put t tag c rest).threads t' = s.threads t' := fun t' ht' ↦
    Function.update_of_ne ht' ..
  have hholder : s.mLogMutex tag = some t := (h.holder tag t).mpr ⟨_, ht⟩
  have hbegun : (s.put t tag c rest).begun = s.begun := by
    funext t'
    by_cases heq : t' = t
    · subst heq
      rw [State.begun, State.begun, hself, ht]
      rfl
    · exact begun_of_ne (s := s) rfl rfl heq
  constructor
  · intro tag' t'
    rw [put_mLogMutex, h.holder]
    by_cases heq : t' = t
    · subst heq
      rw [hself, ht]
      constructor
      · rintro ⟨_, heq⟩
        exact ⟨rest, by rw [(Thread.writing.inj heq).1]⟩
      · rintro ⟨_, heq⟩
        exact ⟨c :: rest, by rw [(Thread.writing.inj heq).1]⟩
    · rw [hother t' heq]
  · refine h.output.push (p := tag) ?_ fun tag' htag ↦ ?_
    · rw [put_stream, Function.update_self]
    · rw [put_stream, Function.update_of_ne htag]
  · intro tag'
    rw [put_lines, ← h.whole tag']
    by_cases htag : tag' = tag
    · subst htag
      rw [missing_eq_rest (s := s.put t tag' c rest) hholder, missing_eq_rest hholder, hself, ht,
        put_stream, Function.update_self, Thread.rest, Thread.rest, List.append_assoc,
        List.singleton_append]
    · rw [missing_eq_of_ne (s := s) (u := s.put t tag c rest) rfl rfl (h.not_other ht htag),
        put_stream, Function.update_of_ne htag]
  · rw [hbegun, put_lines]
    exact h.merge
  · intro t' tag' line ht'
    by_cases heq : t' = t
    · subst heq
      rw [hself] at ht'
      cases ht'
    · rw [hother t' heq] at ht'
      exact h.built t' tag' line ht'
  · rw [hbegun]
    exact h.begun_le

theorem Inv.unlock (h : Inv mName todo s) {tag : τ} (ht : s.threads t = .writing tag []) :
    Inv mName todo (s.unlock t tag) := by
  have hself : (s.unlock t tag).threads t = .idle := Function.update_self ..
  have hother : ∀ t', t' ≠ t → (s.unlock t tag).threads t' = s.threads t' := fun t' ht' ↦
    Function.update_of_ne ht' ..
  have hholder : s.mLogMutex tag = some t := (h.holder tag t).mpr ⟨_, ht⟩
  have hbegun : (s.unlock t tag).begun = s.begun := by
    funext t'
    by_cases heq : t' = t
    · subst heq
      rw [State.begun, State.begun, hself, ht, unlock_done, Function.update_self]
    · refine begun_of_ne (s := s) rfl ?_ heq
      rw [unlock_done, Function.update_of_ne heq]
  constructor
  · intro tag' t'
    by_cases htag : tag' = tag
    · subst htag
      rw [unlock_mLogMutex, Function.update_self]
      refine iff_of_false nofun fun ⟨rest, hrest⟩ ↦ ?_
      by_cases heq : t' = t
      · subst heq
        rw [hself] at hrest
        cases hrest
      · rw [hother t' heq] at hrest
        have hsame := hholder.symm.trans ((h.holder tag' t').mpr ⟨rest, hrest⟩)
        exact heq (Option.some.inj hsame).symm
    · rw [unlock_mLogMutex, Function.update_of_ne htag]
      by_cases heq : t' = t
      · subst heq
        rw [hself]
        exact iff_of_false (h.not_other ht htag) fun ⟨rest, hrest⟩ ↦ nomatch hrest
      · rw [hother t' heq]
        exact h.holder tag' t'
  · exact h.output
  · intro tag'
    refine Eq.trans ?_ (h.whole tag')
    by_cases htag : tag' = tag
    · subst htag
      rw [missing_of_free (s := s.unlock t tag') (Function.update_self ..),
        missing_eq_rest hholder, ht]
      rfl
    · rw [missing_eq_of_ne (s := s) (u := s.unlock t tag) (Function.update_of_ne htag ..) rfl
        (h.not_other ht htag)]
      rfl
  · rw [hbegun]
    exact h.merge
  · intro t' tag' line ht'
    by_cases heq : t' = t
    · subst heq
      rw [hself] at ht'
      cases ht'
    · rw [hother t' heq] at ht'
      rw [unlock_done, Function.update_of_ne heq]
      exact h.built t' tag' line ht'
  · rw [hbegun]
    exact h.begun_le

theorem Inv.turn (h : Inv mName todo s) (t : θ) : Inv mName todo (turn mName todo s t) := by
  have hturned := turned mName todo s t
  generalize Logger.turn mName todo s t = u at hturned ⊢
  cases hturned with
  | finished ht hm => exact h
  | build ht hm => exact h.build ht hm
  | wait ht htaken => exact h
  | lock ht hfree => exact h.lock ht hfree
  | put ht => exact h.put ht
  | unlock ht => exact h.unlock ht

theorem Inv.play (mName : τ → Str) (todo : θ → List (Message τ)) (schedule : List θ) :
    Inv mName todo (play (Logger.turn mName todo) Logger.init schedule) :=
  play_invariant (I := Inv mName todo) (fun _ t hs ↦ hs.turn t) Inv.init schedule

/-! ## The output -/

theorem linesOf_eq_nil {msgs : List (Message τ)} {tag : τ} (h : ∀ m ∈ msgs, m.tag ≠ tag) :
    linesOf mName msgs tag = [] := by
  rw [linesOf, List.filter_eq_nil_iff.mpr fun m hm ↦ by simpa using h m hm, List.map_nil]

/-- **Every interleaving.** The output is a merge of what the loggers have written. What a logger
has written is whole lines, the last of them perhaps without its end while its mutex is held; and
its lines are a merge of the lines that each thread has begun, in the order in which the thread logs
them. Where only one logger is used, the output itself is its lines. -/
theorem output_lines (mName : τ → Str) (todo : θ → List (Message τ)) (schedule : List θ) :
    let s := play (turn mName todo) init schedule
    Merge s.stream s.cout ∧
      (∀ tag, s.stream tag ++ s.missing tag = (s.lines tag).flatten ∧
        (s.mLogMutex tag = none → s.missing tag = []) ∧
        ∃ n : θ → ℕ, (∀ t, s.done t ≤ n t ∧ n t ≤ s.done t + 1 ∧ n t ≤ (todo t).length) ∧
          Merge (fun t ↦ linesOf mName ((todo t).take (n t)) tag) (s.lines tag)) ∧
      ∀ tag, (∀ t, ∀ m ∈ todo t, m.tag = tag) →
        s.cout ++ s.missing tag = (s.lines tag).flatten := by
  intro s
  have h : Inv mName todo s := Inv.play mName todo schedule
  refine ⟨h.output, fun tag ↦ ⟨h.whole tag, missing_of_free, s.begun, fun t ↦ ?_, h.merge tag⟩,
    fun tag hone ↦ ?_⟩
  · refine ⟨?_, ?_, h.begun_le t⟩ <;> rw [State.begun] <;> split <;> omega
  · have hother : ∀ tag', tag' ≠ tag → s.stream tag' = [] := by
      intro tag' htag
      have hlines : s.lines tag' = [] := (h.merge tag').eq_nil fun t ↦
        linesOf_eq_nil fun m hm ↦ by
          rw [hone t m (List.mem_of_mem_take hm)]
          exact htag.symm
      have hwhole := h.whole tag'
      rw [hlines, List.flatten_nil, List.append_eq_nil_iff] at hwhole
      exact hwhole.1
    rw [h.output.eq_of_single hother]
    exact h.whole tag

/-! ## Every line is written -/

section Work

omit [DecidableEq τ] in
/-- The turns that the messages take: one to build the line, one for the mutex, one for each
character and one to give the mutex back. -/
def cost (mName : τ → Str) (msgs : List (Message τ)) : ℕ :=
  (msgs.map fun m ↦ (lineText mName m).length + 3).sum

/-- The turns that the thread still needs for its messages from the `n`-th on. -/
def turnsLeft (mName : τ → Str) (msgs : List (Message τ)) (n : ℕ) : Thread τ → ℕ
  | .idle => cost mName (msgs.drop n)
  | .built _ line => cost mName (msgs.drop (n + 1)) + line.length + 2
  | .writing _ rest => cost mName (msgs.drop (n + 1)) + rest.length + 1

variable [Fintype θ]

/-- The turns that all threads still need. -/
def work (mName : τ → Str) (todo : θ → List (Message τ)) (s : State τ θ) : ℕ :=
  ∑ t, turnsLeft mName (todo t) (s.done t) (s.threads t)

omit [DecidableEq τ] in
/-- A thread that gets on does some of the work, whatever happens to the rest of the state. -/
theorem work_lt {u : State τ θ}
    (hother : ∀ t', t' ≠ t → u.threads t' = s.threads t' ∧ u.done t' = s.done t')
    (hlt : turnsLeft mName (todo t) (u.done t) (u.threads t)
      < turnsLeft mName (todo t) (s.done t) (s.threads t)) :
    work mName todo u < work mName todo s := by
  refine Finset.sum_lt_sum (fun t' _ ↦ ?_) ⟨t, Finset.mem_univ t, hlt⟩
  by_cases heq : t' = t
  · subst heq
    exact hlt.le
  · rw [(hother t' heq).1, (hother t' heq).2]

omit [DecidableEq τ] [DecidableEq θ] [Fintype θ] in
theorem cost_drop {msgs : List (Message τ)} {n : ℕ} {m : Message τ} (hm : msgs[n]? = some m) :
    cost mName (msgs.drop n) = (lineText mName m).length + 3 + cost mName (msgs.drop (n + 1)) := by
  obtain ⟨hn, hget⟩ := List.getElem?_eq_some_iff.mp hm
  rw [List.drop_eq_getElem_cons hn, cost, List.map_cons, List.sum_cons, hget, cost]

/-- A turn changes nothing, or it does some of the work. -/
theorem turn_eq_or_work_lt (mName : τ → Str) (todo : θ → List (Message τ)) (s : State τ θ) (t : θ) :
    turn mName todo s t = s ∨ work mName todo (turn mName todo s t) < work mName todo s := by
  have hmove : ∀ {f : θ → Thread τ} {q : Thread τ} {t' : θ}, t' ≠ t →
      Function.update f t q t' = f t' := fun ht' ↦ Function.update_of_ne ht' ..
  have hturned := turned mName todo s t
  generalize turn mName todo s t = u at hturned ⊢
  cases hturned with
  | finished ht hm => exact Or.inl rfl
  | wait ht htaken => exact Or.inl rfl
  | build ht hm =>
    refine Or.inr (work_lt (t := t) (fun t' ht' ↦ ⟨hmove ht', rfl⟩) ?_)
    rw [move_threads, move_done, Function.update_self, ht, turnsLeft, turnsLeft, cost_drop hm]
    omega
  | lock ht hfree =>
    refine Or.inr (work_lt (t := t) (fun t' ht' ↦ ⟨hmove ht', rfl⟩) ?_)
    rw [lock_threads, Function.update_self, ht, turnsLeft, turnsLeft]
    exact Nat.lt_succ_self _
  | put ht =>
    refine Or.inr (work_lt (t := t) (fun t' ht' ↦ ⟨hmove ht', rfl⟩) ?_)
    rw [put_threads, Function.update_self, ht, turnsLeft, turnsLeft, List.length_cons]
    exact Nat.lt_succ_self _
  | unlock ht =>
    refine Or.inr (work_lt (t := t) (fun t' ht' ↦ ⟨hmove ht', Function.update_of_ne ht' ..⟩) ?_)
    rw [unlock_threads, unlock_done, Function.update_self, Function.update_self, ht, turnsLeft,
      turnsLeft, List.length_nil]
    exact Nat.lt_succ_self _

/-- A turn of the thread does some of the work. -/
def Helpful (mName : τ → Str) (todo : θ → List (Message τ)) (s : State τ θ) (t : θ) : Prop :=
  work mName todo (turn mName todo s t) < work mName todo s

theorem helpful_of_ne (h : (turn mName todo s t).threads t ≠ s.threads t) :
    Helpful mName todo s t :=
  (turn_eq_or_work_lt mName todo s t).resolve_left fun heq ↦ h (by rw [heq])

theorem helpful_of_writing {tag : τ} {rest : Str} (ht : s.threads t = .writing tag rest) :
    Helpful mName todo s t := by
  apply helpful_of_ne
  cases rest with
  | nil =>
    have hturn : turn mName todo s t = s.unlock t tag := by rw [turn, ht]
    rw [hturn, unlock_threads, Function.update_self, ht]
    exact nofun
  | cons c rest =>
    have hturn : turn mName todo s t = s.put t tag c rest := by rw [turn, ht]
    rw [hturn, put_threads, Function.update_self, ht]
    exact fun heq ↦ absurd (Thread.writing.inj heq).2 (List.cons_ne_self c rest).symm

/-- As long as a line is missing, some thread gets on: one that waits for a mutex waits for a thread
that is writing. -/
theorem Inv.exists_helpful (h : Inv mName todo s) (hwork : work mName todo s ≠ 0) :
    ∃ t, Helpful mName todo s t := by
  obtain ⟨t, -, ht⟩ := Finset.exists_ne_zero_of_sum_ne_zero hwork
  cases hthread : s.threads t with
  | writing tag rest => exact ⟨t, helpful_of_writing hthread⟩
  | idle =>
    rw [hthread, turnsLeft] at ht
    cases hm : (todo t)[s.done t]? with
    | none =>
      rw [List.drop_eq_nil_of_le (List.getElem?_eq_none_iff.mp hm)] at ht
      exact absurd rfl ht
    | some m =>
      have hturn : Logger.turn mName todo s t = s.move t (.built m.tag (lineText mName m)) := by
        simp only [Logger.turn, hthread, hm]
      refine ⟨t, helpful_of_ne ?_⟩
      rw [hturn, move_threads, Function.update_self, hthread]
      exact nofun
  | built tag line =>
    cases hmutex : s.mLogMutex tag with
    | none =>
      have hturn : Logger.turn mName todo s t = s.lock t tag line := by
        simp only [Logger.turn, hthread, hmutex]
      refine ⟨t, helpful_of_ne ?_⟩
      rw [hturn, lock_threads, Function.update_self, hthread]
      exact nofun
    | some holder =>
      obtain ⟨rest, hrest⟩ := (h.holder tag holder).mp hmutex
      exact ⟨holder, helpful_of_writing hrest⟩

theorem progress (mName : τ → Str) (todo : θ → List (Message τ)) :
    Progress (turn mName todo) (Inv mName todo) (work mName todo) (Helpful mName todo)
      fun _ _ ↦ 0 where
  inv _ t h := h.turn t
  mono s t _ := by
    rcases turn_eq_or_work_lt mName todo s t with heq | hlt
    · rw [heq]
    · exact hlt.le
  exists_helpful _ h hwork := h.exists_helpful hwork
  stays s t u _ ht heq := by
    -- the turn that does no work changes nothing
    rwa [(turn_eq_or_work_lt mName todo s u).resolve_right heq.not_lt]
  closer _ _ _ ht heq := absurd heq ht.ne
  keeps _ _ _ _ _ _ _ := le_rfl

theorem Inv.finished (h : Inv mName todo s) (hwork : work mName todo s = 0) : Finished todo s := by
  intro t
  have ht := Finset.sum_eq_zero_iff.mp hwork t (Finset.mem_univ t)
  have hle := h.begun_le t
  cases hthread : s.threads t with
  | built tag line =>
    rw [hthread, turnsLeft] at ht
    omega
  | writing tag rest =>
    rw [hthread, turnsLeft] at ht
    omega
  | idle =>
    rw [hthread, turnsLeft] at ht
    rw [State.begun, hthread] at hle
    refine ⟨rfl, hle.antisymm (not_lt.mp fun hlt ↦ ?_)⟩
    rw [cost_drop (List.getElem?_eq_getElem hlt)] at ht
    omega

end Work

omit [DecidableEq τ] [DecidableEq θ] in
theorem Finished.begun (hf : Finished todo s) (t : θ) : s.begun t = (todo t).length := by
  rw [State.begun, (hf t).1]
  exact (hf t).2

/-- **Every line is written.** Under every fair schedule all threads return from all their calls,
after which each logger has written whole lines only, which are the lines of all threads that go to
it, each of them once and in the order in which its thread logs them. -/
theorem lines_end [Fintype θ] (mName : τ → Str) (todo : θ → List (Message τ)) {schedule : ℕ → θ}
    (hfair : Fair schedule) : ∃ m, ∀ k, m ≤ k →
      let s := play (turn mName todo) init (firstTurns schedule k)
      Finished todo s ∧ Merge s.stream s.cout ∧ ∀ tag, s.stream tag = (s.lines tag).flatten ∧
        Merge (fun t ↦ linesOf mName (todo t) tag) (s.lines tag) := by
  obtain ⟨m, hm⟩ := (progress mName todo).fair Inv.init hfair
  refine ⟨m, fun k hk ↦ ?_⟩
  intro s
  have h : Inv mName todo s := Inv.play mName todo _
  have hf : Finished todo s := h.finished (hm k hk)
  have hfree : ∀ tag, s.mLogMutex tag = none := by
    intro tag
    cases hholder : s.mLogMutex tag with
    | none => rfl
    | some t =>
      obtain ⟨rest, hrest⟩ := (h.holder tag t).mp hholder
      rw [(hf t).1] at hrest
      cases hrest
  refine ⟨hf, h.output, fun tag ↦ ⟨?_, ?_⟩⟩
  · have hwhole := h.whole tag
    rwa [missing_of_free (hfree tag), List.append_nil] at hwhole
  · have hmerge := h.merge tag
    simp only [hf.begun, List.take_length] at hmerge
    exact hmerge

/-- Two threads with a line each for the same logger take turns. -/
theorem lines_end_round_robin : ∃ m, ∀ k, m ≤ k →
    Finished (fun p : Bool ↦ [⟨(), .info, "run".toList, 7, ⟨9, 5, 0⟩, 12, cond p ['a'] ['b']⟩])
      (play (turn (fun _ ↦ "Feed".toList)
        fun p : Bool ↦ [⟨(), .info, "run".toList, 7, ⟨9, 5, 0⟩, 12, cond p ['a'] ['b']⟩])
        init (firstTurns (fun m ↦ decide (m % 2 = 0)) k)) := by
  have hfair : Fair fun m ↦ decide (m % 2 = 0) := by
    intro p n
    cases p with
    | false => exact ⟨2 * n + 1, by omega, by simp⟩
    | true => exact ⟨2 * n, by omega, by simp⟩
  obtain ⟨m, hm⟩ := lines_end (fun _ ↦ "Feed".toList)
    (fun p : Bool ↦ [⟨(), .info, "run".toList, 7, ⟨9, 5, 0⟩, 12, cond p ['a'] ['b']⟩]) hfair
  exact ⟨m, fun k hk ↦ (hm k hk).1⟩

/-! ## What a line tells -/

theorem notMem_twoDigits {c : Char} (hc : c.isDigit = false) (hminus : c ≠ '-') (i : ℤ) :
    c ∉ twoDigits i := by
  have hzero : c ≠ '0' := by
    rintro rfl
    exact absurd hc (by decide)
  rw [twoDigits, List.mem_append, not_or]
  refine ⟨?_, notMem_decimal hc hminus i⟩
  split
  · simpa using hzero
  · exact List.not_mem_nil

/-- The zero in front of a field does not change its value. -/
theorem ofDigits_twoDigits {i : ℤ} (hi : 0 ≤ i) : (ofDigits (twoDigits i) : ℤ) = i := by
  have hdecimal : decimal i = Nat.toDigits 10 i.natAbs := by rw [decimal, if_neg (not_lt.mpr hi)]
  have hzero : ∀ ds, ofDigits ('0' :: ds) = ofDigits ds := fun ds ↦ rfl
  have habs : (i.natAbs : ℤ) = i := Int.natAbs_of_nonneg hi
  rw [twoDigits, hdecimal]
  split
  · rw [List.singleton_append, hzero, ofDigits_toDigits, habs]
  · rw [List.nil_append, ofDigits_toDigits, habs]

theorem twoDigits_inj {i j : ℤ} (hi : 0 ≤ i) (hj : 0 ≤ j) (h : twoDigits i = twoDigits j) :
    i = j := by
  rw [← ofDigits_twoDigits hi, ← ofDigits_twoDigits hj, h]

theorem length_levelToColor (l : Level) : (levelToColor l).length = 5 := by
  cases l <;> decide

theorem levelToColor_inj {l l' : Level} (h : levelToColor l = levelToColor l') : l = l' := by
  cases l <;> cases l' <;> first | rfl | exact absurd h (by decide)

/-- Equal texts are equal up to a character that is in neither of the parts in front of it. -/
theorem split_inj {a b r r' : Str} {c : Char} (ha : c ∉ a) (hb : c ∉ b)
    (h : a ++ c :: r = b ++ c :: r') : a = b ∧ r = r' := by
  constructor
  · rw [← before_append ha r, h, before_append hb]
  · rw [← after_append ha r, h, after_append hb]

/-- The fields of a time. -/
structure Tm.Valid (tm : Tm) : Prop where
  tmHour : 0 ≤ tm.tmHour
  tmMin : 0 ≤ tm.tmMin
  tmSec : 0 ≤ tm.tmSec

omit [DecidableEq τ] in
/-- **A line tells what was logged.** Two calls of one logger print the same line only if they agree
in level, time, milliseconds, function, line and the text that the arguments print; the name of a
function has no colon, and the fields of a time are not negative. -/
theorem lineText_inj (mName : τ → Str) {m m' : Message τ} (htag : m.tag = m'.tag)
    (hfunc : ':' ∉ m.func) (hfunc' : ':' ∉ m'.func) (htime : m.timeBuf.Valid)
    (htime' : m'.timeBuf.Valid) (h : lineText mName m = lineText mName m') : m = m' := by
  obtain ⟨tag, level, func, line, ⟨hour, min, sec⟩, ms, args⟩ := m
  obtain ⟨tag', level', func', line', ⟨hour', min', sec'⟩, ms', args'⟩ := m'
  obtain rfl : tag = tag' := htag
  have hlength : (levelToColor level).length = (levelToColor level').length := by
    rw [length_levelToColor, length_levelToColor]
  have hdigit : ∀ {c : Char}, c ∈ [':', '.', ']'] → c.isDigit = false ∧ c ≠ '-' := by
    intro c hc
    simp only [List.mem_cons, List.not_mem_nil, or_false] at hc
    rcases hc with rfl | rfl | rfl <;> decide
  have hdecimal : ∀ {c : Char} (i : ℤ), c ∈ [':', '.', ']'] → c ∉ decimal i := fun i hc ↦
    notMem_decimal (hdigit hc).1 (hdigit hc).2 i
  have htwo : ∀ {c : Char} (i : ℤ), c ∈ [':', '.', ']'] → c ∉ twoDigits i := fun i hc ↦
    notMem_twoDigits (hdigit hc).1 (hdigit hc).2 i
  rw [lineText, lineText] at h
  -- field by field, up to the character behind it
  obtain ⟨hcolor, h⟩ := List.append_inj h hlength
  obtain rfl := levelToColor_inj hcolor
  obtain ⟨hhour, h⟩ := split_inj (htwo _ (by decide)) (htwo _ (by decide)) (List.cons.inj h).2
  obtain ⟨hmin, h⟩ := split_inj (htwo _ (by decide)) (htwo _ (by decide)) h
  obtain ⟨hsec, h⟩ := split_inj (htwo _ (by decide)) (htwo _ (by decide)) h
  obtain ⟨hms, h⟩ := split_inj (hdecimal _ (by decide)) (hdecimal _ (by decide)) h
  have h := List.append_cancel_left (List.cons.inj h).2
  have h := List.append_cancel_left (List.cons.inj (List.cons.inj h).2).2
  obtain ⟨rfl, h⟩ := split_inj hfunc hfunc' (List.cons.inj (List.cons.inj h).2).2
  obtain ⟨hline, h⟩ := split_inj (hdecimal _ (by decide)) (hdecimal _ (by decide)) h
  obtain rfl := List.append_cancel_right (List.cons.inj h).2
  obtain rfl := twoDigits_inj htime.tmHour htime'.tmHour hhour
  obtain rfl := twoDigits_inj htime.tmMin htime'.tmMin hmin
  obtain rfl := twoDigits_inj htime.tmSec htime'.tmSec hsec
  obtain rfl := decimal_injective hms
  obtain rfl := decimal_injective hline
  rfl

/-- The milliseconds have no zeros in front of them, and still 7 and 70 do not look alike. -/
theorem lineText_inj_ms :
    lineText (fun _ ↦ "Feed".toList) (⟨(), .info, "run".toList, 7, ⟨9, 5, 0⟩, 7, []⟩ : Message Unit)
      ≠ lineText (fun _ ↦ "Feed".toList) ⟨(), .info, "run".toList, 7, ⟨9, 5, 0⟩, 70, []⟩ := by
  intro h
  have heq : (⟨(), .info, "run".toList, 7, ⟨9, 5, 0⟩, 7, []⟩ : Message Unit)
      = ⟨(), .info, "run".toList, 7, ⟨9, 5, 0⟩, 70, []⟩ :=
    lineText_inj (fun _ ↦ "Feed".toList) rfl (by decide) (by decide)
      ⟨by decide, by decide, by decide⟩ ⟨by decide, by decide, by decide⟩ h
  exact absurd (congrArg Message.ms heq) (by decide)

end Logger

end FastInAHurry
