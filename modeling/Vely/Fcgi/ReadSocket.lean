import Vely.Fcgi.Response

/-!
# Whether reading a socket ends (`vv_read_socket`)

A call of `read` that gives nothing is made again when `errno` is `EINTR`.  A call that fails sets
`errno`, but the end of the file does not: it is taken for an interruption when an earlier call left
`EINTR` there, and the loop does not end.
-/

namespace Vely

namespace Fcgi

/-- `EINTR` -/
def eintr : Int := 4

/-- A call of `read` after which more may come: some bytes, or as many of them as were asked for; or
an interruption by a signal. -/
inductive Pause where
  | bytes (b : UInt8) (bs : List UInt8) (after : AfterRead)
  | interrupted
  deriving DecidableEq

/-- What the calls of `read` come to in the end: the server has closed the connection, or there is
an error, which is no interruption. -/
inductive Close where
  | endOfFile (timeUp : Bool)
  | error (errno : Int) (timeUp : Bool) (h : errno ≠ eintr)

/-- The calls of `read`: finitely many after which more may come, and what all others come to. -/
structure Calls where
  before : List Pause
  last : Close

/-- What a call of `read` gives: bytes, or nothing, with the value of `errno` if it is set. -/
inductive ReadCall where
  | got (bs : List UInt8) (after : AfterRead)
  | nothing (res : Int) (errno : Option Int) (timeUp : Bool)

/-- The next call of `read`, which asks for `n` bytes, at least one. -/
def Calls.read (calls : Calls) (n : Nat) : ReadCall × Calls :=
  match calls with
  | ⟨.bytes b bs after :: before, last⟩ => (.got ((b :: bs).take n) after, ⟨before, last⟩)
  | ⟨.interrupted :: before, last⟩ => (.nothing (-1) (some eintr) false, ⟨before, last⟩)
  | ⟨[], .endOfFile timeUp⟩ => (.nothing 0 none timeUp, calls)
  | ⟨[], .error errno timeUp _⟩ => (.nothing (-1) (some errno) timeUp, calls)

/-- What `vv_read_socket` returns, with the bytes in the buffer and the state of the request. -/
structure Returned where
  res : Int
  buf : List UInt8
  reading : Reading

/-- The loop of `vv_read_socket`, which does not return within the number of rounds if there is no
value. -/
def readLoop (len : Nat) (c : Reading) :
    Nat → Int → List UInt8 → Calls → Option Returned
  | 0, _, _, _ => none
  | fuel + 1, errno, gotten, calls =>
    match calls.read (len - gotten.length) with
    | (.nothing res e timeUp, calls) =>
      let errno := e.getD errno
      if errno = eintr then readLoop len c fuel errno gotten calls
      else if timeUp then some ⟨-1, gotten, { c with interrupted := true }⟩
      else some ⟨res, gotten, checkRead res c⟩
    | (.got bs after, calls) =>
      let gotten := gotten ++ bs
      if len ≤ gotten.length then some ⟨len, gotten, c⟩
      else
        match after with
        | .goOn => readLoop len c fuel errno gotten calls
        | .timeUp => some ⟨-1, gotten, { c with interrupted := true }⟩
        | .cannotSet => some ⟨-1, gotten, checkRead (-1) c⟩

/-! ## What the calls amount to -/

/-- How far the first calls go when `n` bytes are wanted: all of them come, the time is up before
that, or it depends on the last call. -/
inductive Fate where
  | full
  | stopped
  | atEnd
  deriving DecidableEq

/-- How far calls go when `n` bytes are wanted. -/
def fate : Nat → List Pause → Fate
  | _, [] => .atEnd
  | n, .interrupted :: before => fate n before
  | n, .bytes b bs after :: before =>
    if n ≤ (b :: bs).length then .full
    else if after = .goOn then fate (n - (b :: bs).length) before
    else .stopped

/-- The bytes that calls give. -/
def allBytes : List Pause → List UInt8
  | [] => []
  | .interrupted :: before => allBytes before
  | .bytes b bs _ :: before => b :: bs ++ allBytes before

/-- A failure: no number of bytes, and a request that still reads its response has an error or is
interrupted. -/
def Returned.Failed (r : Returned) (c : Reading) : Prop :=
  r.res ≤ 0 ∧ (c.readDone = false → r.reading.readStatus < 0 ∨ r.reading.interrupted = true)

/-- The function returns, with the number of bytes if all came, and else with a failure. -/
def ReadEnds (len : Nat) (c : Reading) (errno : Int) (calls : Calls) : Prop :=
  ∃ fuel r, readLoop len c fuel errno [] calls = some r
    ∧ if fate len calls.before = .full then
        r.res = len ∧ r.buf = (allBytes calls.before).take len
      else r.Failed c

/-- The connection is closed before all bytes came, and `errno` is `EINTR` then: from before, or
from a call that was interrupted. -/
def TakenForInterrupted (len : Nat) (errno : Int) (calls : Calls) : Prop :=
  fate len calls.before = .atEnd ∧ (∃ timeUp, calls.last = .endOfFile timeUp)
    ∧ (errno = eintr ∨ .interrupted ∈ calls.before)

section Loop

variable {len : Nat} {c : Reading} {errno : Int} {gotten : List UInt8} {before : List Pause}
  {last : Close} {fuel : Nat}

theorem readLoop_interrupted :
  readLoop len c (fuel + 1) errno gotten ⟨.interrupted :: before, last⟩
    = readLoop len c fuel eintr gotten ⟨before, last⟩
  := rfl

/-- The bytes that were asked for are there. -/
theorem readLoop_full {b : UInt8} {bs : List UInt8} (after : AfterRead)
    (hlen : gotten.length ≤ len) (h : len - gotten.length ≤ (b :: bs).length) :
  readLoop len c (fuel + 1) errno gotten ⟨.bytes b bs after :: before, last⟩
    = some ⟨len, gotten ++ (b :: bs).take (len - gotten.length), c⟩
  := by
  have hfull : len ≤ (gotten ++ (b :: bs).take (len - gotten.length)).length := by
    rw [List.length_append, List.length_take_of_le h]
    omega
  simp only [readLoop, Calls.read]
  rw [if_pos hfull]

/-- Some bytes come, but not all. -/
theorem readLoop_some {b : UInt8} {bs : List UInt8} (after : AfterRead)
    (h : (b :: bs).length < len - gotten.length) :
  readLoop len c (fuel + 1) errno gotten ⟨.bytes b bs after :: before, last⟩
    = match after with
      | .goOn => readLoop len c fuel errno (gotten ++ b :: bs) ⟨before, last⟩
      | .timeUp => some ⟨-1, gotten ++ b :: bs, { c with interrupted := true }⟩
      | .cannotSet => some ⟨-1, gotten ++ b :: bs, checkRead (-1) c⟩
  := by
  have htake : (b :: bs).take (len - gotten.length) = b :: bs := List.take_of_length_le h.le
  have hpartial : ¬ len ≤ (gotten ++ b :: bs).length := by
    rw [List.length_append]
    omega
  simp only [readLoop, Calls.read]
  rw [htake, if_neg hpartial]

/-- The end of the file is taken for an interruption, forever. -/
theorem readLoop_stuck (timeUp : Bool) :
  readLoop len c fuel eintr gotten ⟨[], .endOfFile timeUp⟩ = none
  := by
  induction fuel with
  | zero => rfl
  | succ fuel ih =>
    simp only [readLoop, Calls.read, Option.getD_none, if_true]
    exact ih

/-- The end of the file is seen. -/
theorem readLoop_endOfFile (timeUp : Bool) (h : errno ≠ eintr) :
  readLoop len c (fuel + 1) errno gotten ⟨[], .endOfFile timeUp⟩
    = if timeUp then some ⟨-1, gotten, { c with interrupted := true }⟩
      else some ⟨0, gotten, checkRead 0 c⟩
  := by
  simp only [readLoop, Calls.read, Option.getD_none]
  rw [if_neg h]

/-- An error ends the loop, whatever `errno` was. -/
theorem readLoop_error {e : Int} (timeUp : Bool) (h : e ≠ eintr) :
  readLoop len c (fuel + 1) errno gotten ⟨[], .error e timeUp h⟩
    = if timeUp then some ⟨-1, gotten, { c with interrupted := true }⟩
      else some ⟨-1, gotten, checkRead (-1) c⟩
  := by
  simp only [readLoop, Calls.read, Option.getD_some]
  rw [if_neg h]

/-! ## Failures -/

theorem failed_timeUp :
  Returned.Failed ⟨-1, gotten, { c with interrupted := true }⟩ c
  := by
  constructor
  · apply Int.negSucc_le_zero
  · intro _
    exact Or.inr rfl

theorem failed_error :
  Returned.Failed ⟨-1, gotten, checkRead (-1) c⟩ c
  := by
  constructor
  · apply Int.negSucc_le_zero
  · intro _
    left
    apply Int.negSucc_lt_zero

theorem failed_endOfFile :
  Returned.Failed ⟨0, gotten, checkRead 0 c⟩ c
  := by
  constructor
  · exact le_rfl
  · intro hdone
    left
    rw [checkRead, if_neg (by decide), if_pos rfl, hdone]
    split
    · apply Int.negSucc_lt_zero
    · apply Int.negSucc_lt_zero

/-! ## Whether the end of the file is taken for an interruption -/

theorem takenForInterrupted_interrupted {n : Nat} :
  TakenForInterrupted n errno ⟨.interrupted :: before, last⟩
    ↔ TakenForInterrupted n eintr ⟨before, last⟩
  := by
  constructor
  · rintro ⟨hend, hlast, -⟩
    exact ⟨hend, hlast, Or.inl rfl⟩
  · rintro ⟨hend, hlast, -⟩
    exact ⟨hend, hlast, Or.inr List.mem_cons_self⟩

/-- After some bytes, it depends on the other calls. -/
theorem takenForInterrupted_bytes {b : UInt8} {bs : List UInt8}
    (h : (b :: bs).length < len - gotten.length) :
  TakenForInterrupted (len - gotten.length) errno ⟨.bytes b bs .goOn :: before, last⟩
    ↔ TakenForInterrupted (len - (gotten ++ b :: bs).length) errno ⟨before, last⟩
  := by
  have hmissing : len - (gotten ++ b :: bs).length = len - gotten.length - (b :: bs).length := by
    rw [List.length_append]
    omega
  have hfate : fate (len - gotten.length) (.bytes b bs .goOn :: before)
      = fate (len - (gotten ++ b :: bs).length) before := by
    rw [fate, if_neg (not_le.mpr h), if_pos rfl, hmissing]
  have hmem : Pause.interrupted ∈ Pause.bytes b bs .goOn :: before ↔ .interrupted ∈ before := by
    rw [List.mem_cons, or_iff_right (by simp)]
  unfold TakenForInterrupted
  rw [hfate, hmem]

/-- When `n` bytes are missing, the loop ends with them or with a failure, unless the end of the file
is taken for an interruption. -/
theorem readLoop_ends (hlen : gotten.length ≤ len)
    (h : ¬ TakenForInterrupted (len - gotten.length) errno ⟨before, last⟩) :
  ∃ fuel r, readLoop len c fuel errno gotten ⟨before, last⟩ = some r
    ∧ if fate (len - gotten.length) before = .full then
        r.res = len ∧ r.buf = gotten ++ (allBytes before).take (len - gotten.length)
      else r.Failed c
  := by
  induction before generalizing errno gotten with
  | nil =>
    use 1
    cases last with
    | endOfFile timeUp =>
      have herrno : errno ≠ eintr := by
        intro herrno
        exact h ⟨rfl, ⟨timeUp, rfl⟩, Or.inl herrno⟩
      rw [readLoop_endOfFile timeUp herrno]
      cases timeUp with
      | true => exact ⟨_, rfl, failed_timeUp⟩
      | false => exact ⟨_, rfl, failed_endOfFile⟩
    | error e timeUp he =>
      rw [readLoop_error timeUp he]
      cases timeUp with
      | true => exact ⟨_, rfl, failed_timeUp⟩
      | false => exact ⟨_, rfl, failed_error⟩
  | cons call before ih =>
    cases call with
    | interrupted =>
      rw [takenForInterrupted_interrupted] at h
      obtain ⟨fuel, r, hr, hok⟩ := ih hlen h
      use fuel + 1, r
      rw [readLoop_interrupted]
      exact ⟨hr, hok⟩
    | bytes b bs after =>
      by_cases hfull : len - gotten.length ≤ (b :: bs).length
      · use 1
        rw [readLoop_full after hlen hfull]
        refine ⟨_, rfl, ?_⟩
        rw [fate, if_pos hfull, if_pos rfl, allBytes, List.take_append_of_le_length hfull]
        exact ⟨rfl, rfl⟩
      · rw [fate, if_neg hfull]
        have hpartial : (b :: bs).length < len - gotten.length := not_le.mp hfull
        cases after with
        | goOn =>
          have hmissing : len - (gotten ++ b :: bs).length
              = len - gotten.length - (b :: bs).length := by
            rw [List.length_append]
            omega
          rw [takenForInterrupted_bytes hpartial] at h
          have hlen' : (gotten ++ b :: bs).length ≤ len := by
            rw [List.length_append]
            omega
          obtain ⟨fuel, r, hr, hok⟩ := ih hlen' h
          use fuel + 1, r
          rw [readLoop_some .goOn hpartial, if_pos rfl]
          use hr
          have htake : (allBytes (.bytes b bs .goOn :: before)).take (len - gotten.length)
              = b :: bs ++ (allBytes before).take (len - gotten.length - (b :: bs).length) := by
            rw [allBytes, List.take_append, List.take_of_length_le hpartial.le]
          rw [htake, ← List.append_assoc, ← hmissing]
          exact hok
        | timeUp =>
          use 1
          rw [readLoop_some .timeUp hpartial]
          exact ⟨_, rfl, failed_timeUp⟩
        | cannotSet =>
          use 1
          rw [readLoop_some .cannotSet hpartial]
          exact ⟨_, rfl, failed_error⟩

/-- When the end of the file is taken for an interruption, the loop does not end. -/
theorem readLoop_diverges (hlen : gotten.length ≤ len)
    (h : TakenForInterrupted (len - gotten.length) errno ⟨before, last⟩) :
  readLoop len c fuel errno gotten ⟨before, last⟩ = none
  := by
  induction before generalizing errno gotten fuel with
  | nil =>
    obtain ⟨-, ⟨timeUp, hlast⟩, herrno⟩ := h
    obtain rfl : last = .endOfFile timeUp := hlast
    obtain rfl : errno = eintr := herrno.resolve_right List.not_mem_nil
    apply readLoop_stuck
  | cons call before ih =>
    cases fuel with
    | zero => rfl
    | succ fuel =>
      cases call with
      | interrupted =>
        rw [takenForInterrupted_interrupted] at h
        rw [readLoop_interrupted]
        exact ih hlen h
      | bytes b bs after =>
        have hpartial : (b :: bs).length < len - gotten.length := by
          by_contra hfull
          have hend := h.1
          rw [fate, if_pos (not_lt.mp hfull)] at hend
          cases hend
        obtain rfl : after = .goOn := by
          by_contra hstop
          have hend := h.1
          rw [fate, if_neg (not_le.mpr hpartial), if_neg hstop] at hend
          cases hend
        rw [takenForInterrupted_bytes hpartial] at h
        rw [readLoop_some .goOn hpartial]
        apply ih _ h
        rw [List.length_append]
        omega

/-- The function returns, with all bytes or a failure, exactly when the end of the file is not taken
for an interruption. -/
theorem readEnds_iff (len : Nat) (c : Reading) (errno : Int) (calls : Calls) :
  ReadEnds len c errno calls ↔ ¬ TakenForInterrupted len errno calls
  := by
  constructor
  · rintro ⟨fuel, r, hr, -⟩ hstuck
    have hnone := @readLoop_diverges len c errno [] calls.before calls.last fuel (Nat.zero_le _)
      hstuck
    rw [hr] at hnone
    cases hnone
  · intro h
    exact @readLoop_ends len c errno [] calls.before calls.last (Nat.zero_le _) h

/-- A header of which nothing comes before the connection is closed, when a call was interrupted. -/
theorem not_readEnds_interrupted :
  ¬ ReadEnds 8 (Reading.init 0) 0 ⟨[.interrupted], .endOfFile false⟩
  := by
  rintro ⟨fuel, r, hr, -⟩
  have hnone : readLoop 8 (Reading.init 0) fuel 0 [] ⟨[.interrupted], .endOfFile false⟩ = none := by
    apply readLoop_diverges (Nat.zero_le _)
    exact ⟨rfl, ⟨false, rfl⟩, Or.inr List.mem_cons_self⟩
  rw [hr] at hnone
  cases hnone

/-! ## The loop without `errno` -/

/-- What a call comes to, when nothing is said of `errno`. -/
def Pause.result : Pause → ReadResult
  | .bytes _ bs after => .got bs.length after
  | .interrupted => .interrupted

/-- What the last call comes to, when nothing is said of `errno`. -/
def Close.result : Close → ReadResult
  | .endOfFile timeUp => .got 0 (if timeUp then .timeUp else .goOn)
  | .error _ timeUp _ => .failed timeUp

/-- What the caller takes from the call: the bytes, if there is a number of them, and the state of
the request. -/
def Returned.taken (r : Returned) : Option (List UInt8) × Reading :=
  (if 0 < r.res then some r.buf else none, r.reading)

/-- As long as the end of the file is not taken for an interruption, the reading of the response sees
what the loop returns. -/
theorem readLoop_eq_readFrom (hlen : gotten.length < len)
    (h : ¬ TakenForInterrupted (len - gotten.length) errno ⟨before, last⟩) :
  ∃ fuel, (readLoop len c fuel errno gotten ⟨before, last⟩).map Returned.taken
    = (readFrom len c (allBytes before) gotten (before.map Pause.result ++ [last.result])).map
        fun g => (g.buf, g.reading)
  := by
  induction before generalizing errno gotten with
  | nil =>
    use 1
    cases last with
    | endOfFile timeUp =>
      have herrno : errno ≠ eintr := by
        intro herrno
        exact h ⟨rfl, ⟨timeUp, rfl⟩, Or.inl herrno⟩
      rw [readLoop_endOfFile timeUp herrno]
      cases timeUp with
      | true => rfl
      | false => rfl
    | error e timeUp he =>
      rw [readLoop_error timeUp he]
      cases timeUp with
      | true => rfl
      | false => rfl
  | cons call before ih =>
    cases call with
    | interrupted =>
      rw [takenForInterrupted_interrupted] at h
      obtain ⟨fuel, hread⟩ := ih hlen h
      use fuel + 1
      rw [readLoop_interrupted, hread]
      rfl
    | bytes b bs after =>
      have hne : b :: bs ++ allBytes before ≠ [] := List.cons_ne_nil _ _
      rw [List.map_cons, List.cons_append, allBytes, Pause.result, readFrom, if_neg hne]
      by_cases hfull : len - gotten.length ≤ (b :: bs).length
      · use 1
        have hres : min (bs.length + 1) (len - gotten.length) = len - gotten.length :=
          min_eq_right hfull
        have hbuf : len ≤ (gotten ++ (b :: bs).take (len - gotten.length)).length := by
          rw [List.length_append, List.length_take_of_le hfull]
          omega
        have hpos : (0 : Int) < len := by omega
        rw [readLoop_full after hlen.le hfull]
        simp only [hres, List.take_append_of_le_length hfull]
        rw [if_pos hbuf, Option.map_some, Option.map_some, Returned.taken, if_pos hpos]
      · have hpartial : (b :: bs).length < len - gotten.length := not_le.mp hfull
        have hres : min (bs.length + 1) (len - gotten.length) = (b :: bs).length :=
          min_eq_left hpartial.le
        have hbuf : ¬ len ≤ (gotten ++ b :: bs).length := by
          rw [List.length_append]
          omega
        simp only [hres, List.take_left', List.drop_left']
        rw [if_neg hbuf]
        cases after with
        | goOn =>
          rw [takenForInterrupted_bytes hpartial] at h
          obtain ⟨fuel, hread⟩ := ih (not_le.mp hbuf) h
          use fuel + 1
          rw [readLoop_some .goOn hpartial, hread]
        | timeUp =>
          use 1
          rw [readLoop_some .timeUp hpartial]
          rfl
        | cannotSet =>
          use 1
          rw [readLoop_some .cannotSet hpartial]
          rfl

end Loop

end Fcgi

end Vely
