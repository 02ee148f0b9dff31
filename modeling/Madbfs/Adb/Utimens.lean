/-
Setting times over adb.  The handler gives `touch` the whole seconds as a local
time and appends the nanoseconds as a number, without leading zeros, which
`touch` reads as the digits of a fraction.  The time arrives as it was asked
for when that number has nine digits or is zero.
-/
import Madbfs.Adb.Command
import Mathlib.Data.List.TakeWhile

namespace Madbfs

namespace Adb

/-- A time of a file: as it was, the current time, or nanoseconds since the
epoch. -/
inductive Instant where
  | old
  | now
  | at (ns : Int)
deriving Repr, DecidableEq

structure Times where
  atime : Instant
  mtime : Instant
deriving Repr, DecidableEq

/-- The commands one after the other, up to the first that fails. -/
def runAll {δ : Type} (exec : Command → δ → Except Errc Unit × δ) :
    List Command → δ → Except Errc Unit × δ
  | [], device => (.ok (), device)
  | cmd :: rest, device =>
      match exec cmd device with
      | (.error err, device) => (.error err, device)
      | (.ok _, device) => runAll exec rest device

/-- `handle_req` for `Utimens`.  There may be no time zone. -/
def handleUtimens {δ : Type} (exec : Command → δ → Except Errc Unit × δ)
    (zone : Option (Int64 → Str)) (path : Str) (atime mtime : Rpc.Timespec)
    (device : δ) : Except Errc Unit × δ :=
  match zone with
  | none => (.error Errc.resourceUnavailableTryAgain, device)
  | some localTime =>
      runAll exec ((Request.utimens path atime mtime).commands localTime
        fun _ => none) device

/-- `d` digits after the seconds, in nanoseconds. -/
def readFraction (digits : Str) : Option Nat :=
  if digits = [] then some 0
  else if digits.length ≤ 9 then
    (Numeral.read 10 digits).map (· * 10 ^ (9 - digits.length))
  else none

/-- How `touch` reads its `-t` argument: a local time that ends with a point
and two digits, and the digits of a fraction. -/
def readTime (readLocal : Str → Option Int) (t : Str) : Option Int := do
  let tail := t.dropWhile (· ≠ '.')
  let sec ← readLocal (t.takeWhile (· ≠ '.') ++ tail.take 3)
  let ns ← readFraction (tail.drop 3)
  return sec * 10 ^ 9 + ns

def Times.set (times : Times) (flag : Str) (instant : Instant) : Times :=
  if flag = "-a".toList then { times with atime := instant }
  else { times with mtime := instant }

/-- `touch -c` on a file. -/
def runTouch (readLocal : Str → Option Int) (cmd : Command) (times : Times) :
    Except Errc Unit × Times :=
  match cmd.drop 4 with
  | [.word flag, .path _ _] => (.ok (), times.set flag .now)
  | [.word flag, _, .word t, .path _ _] =>
      match readTime readLocal t with
      | some ns => (.ok (), times.set flag (.at ns))
      | none => (.error Errc.ioError, times)
  | _ => (.error Errc.ioError, times)

/-- What a `timespec` asks for. -/
def instantOf (time : Rpc.Timespec) : Instant :=
  if time.nsec = utimeOmit then .old
  else if time.nsec = utimeNow then .now
  else .at (time.sec.toInt * 10 ^ 9 + time.nsec.toInt)

/-- A `timespec` as `utimensat` allows it. -/
def Valid (time : Rpc.Timespec) : Prop :=
  time.nsec = utimeOmit ∨ time.nsec = utimeNow ∨
    0 ≤ time.nsec.toInt ∧ time.nsec.toInt < 10 ^ 9

/-- Nanoseconds that need nine digits, or none. -/
def Exact (time : Rpc.Timespec) : Prop :=
  time.nsec = utimeOmit ∨ time.nsec = utimeNow ∨ time.nsec.toInt = 0 ∨
    10 ^ 8 ≤ time.nsec.toInt

/-- The local time of some seconds has its two digits behind the only point,
and it is read as these seconds. -/
structure LocalTime (localTime : Int64 → Str) (readLocal : Str → Option Int)
    (sec : Int64) : Prop where
  shape : ∃ front high low,
    '.' ∉ front ∧ localTime sec = front ++ ['.', high, low]
  exact : readLocal (localTime sec) = some sec.toInt

section Fraction

variable {n : Nat}

theorem length_write_le_nine (hlt : n < 10 ^ 9) :
    (Numeral.write 10 n).length ≤ 9 :=
  (Numeral.length_write_le_iff (by decide) (by decide)).mpr hlt

/-- A number with fewer digits than nine is read as a larger fraction. -/
theorem shift_eq_iff (hlt : n < 10 ^ 9) :
    n * 10 ^ (9 - (Numeral.write 10 n).length) = n ↔ n = 0 ∨ 10 ^ 8 ≤ n := by
  have hnine := length_write_le_nine hlt
  have height : (Numeral.write 10 n).length ≤ 8 ↔ n < 10 ^ 8 :=
    Numeral.length_write_le_iff (by decide) (by decide)
  constructor
  · intro hshift
    by_contra hnot
    have hpow : 10 ≤ 10 ^ (9 - (Numeral.write 10 n).length) :=
      Nat.le_self_pow (by omega) 10
    have hmul := Nat.mul_le_mul_left n hpow
    omega
  · rintro (rfl | hle)
    · exact Nat.zero_mul _
    · have hlength : (Numeral.write 10 n).length = 9 := by omega
      rw [hlength, Nat.sub_self, Nat.pow_zero, Nat.mul_one]

theorem readFraction_write (hlt : n < 10 ^ 9) :
    readFraction (Numeral.write 10 n) =
      some (n * 10 ^ (9 - (Numeral.write 10 n).length)) := by
  rw [readFraction, if_neg (Numeral.write_ne_nil 10 n),
    if_pos (length_write_le_nine hlt),
    Numeral.read_write (by decide) (by decide), Option.map_some]

end Fraction

/-- What arrives for a `timespec`. -/
def arrives (time : Rpc.Timespec) : Instant :=
  if time.nsec = utimeOmit then .old
  else if time.nsec = utimeNow then .now
  else .at (time.sec.toInt * 10 ^ 9 + (time.nsec.toInt.natAbs *
    10 ^ (9 - (Numeral.write 10 time.nsec.toInt.natAbs).length) : Nat))

theorem arrives_eq_iff {time : Rpc.Timespec} (hvalid : Valid time) :
    arrives time = instantOf time ↔ Exact time := by
  unfold arrives instantOf Exact
  by_cases homit : time.nsec = utimeOmit
  · simp [homit]
  · by_cases hnow : time.nsec = utimeNow
    · simp [hnow]
    · obtain ⟨hpos, hlt⟩ := (hvalid.resolve_left homit).resolve_left hnow
      have hshift := shift_eq_iff (n := time.nsec.toInt.natAbs) (by omega)
      rw [if_neg homit, if_neg homit, if_neg hnow, if_neg hnow,
        Instant.at.injEq]
      generalize time.nsec.toInt.natAbs *
        10 ^ (9 - (Numeral.write 10 time.nsec.toInt.natAbs).length) = shifted
        at hshift ⊢
      simp only [homit, hnow, false_or]
      omega

section Commands

variable {localTime : Int64 → Str} {readLocal : Str → Option Int}
  {time : Rpc.Timespec}

theorem readTime_local (hlocal : LocalTime localTime readLocal time.sec)
    (hpos : 0 ≤ time.nsec.toInt) (hlt : time.nsec.toInt < 10 ^ 9) :
    readTime readLocal (localTime time.sec ++ showInt time.nsec.toInt) =
      some (time.sec.toInt * 10 ^ 9 + (time.nsec.toInt.natAbs *
        10 ^ (9 - (Numeral.write 10 time.nsec.toInt.natAbs).length) : Nat)) := by
  obtain ⟨front, high, low, hfront, hshape⟩ := hlocal.shape
  have hexact := hlocal.exact
  have hall : ∀ ch ∈ front, decide (ch ≠ '.') = true := by
    intro ch hch
    exact decide_eq_true fun heq => hfront (heq ▸ hch)
  have hshow : showInt time.nsec.toInt =
      Numeral.write 10 time.nsec.toInt.natAbs :=
    if_neg (by omega)
  rw [hshape] at hexact
  rw [hshape, hshow, readTime, List.append_assoc,
    List.takeWhile_append_of_pos hall, List.dropWhile_append_of_pos hall]
  simp only [List.cons_append, List.nil_append, ne_eq, decide_not,
    List.takeWhile_cons, List.dropWhile_cons, decide_true, Bool.not_true,
    Bool.false_eq_true, ↓reduceIte, List.append_nil, List.take_succ_cons,
    List.take_zero, List.drop_succ_cons, List.drop_zero, hexact,
    readFraction_write (show time.nsec.toInt.natAbs < 10 ^ 9 by omega)]
  rfl

theorem runTouch_at {t : Str} {ns : Int}
    (hread : readTime readLocal t = some ns)
    (flag : String) (path : Str) (times : Times) :
    runTouch readLocal [word "adb", word "shell", word "touch", word "-c",
        word flag, word "-t", .word t, quoted path] times =
      (.ok (), times.set flag.toList (.at ns)) := by
  simp only [runTouch, word, quoted, List.drop_succ_cons, List.drop_zero,
    hread]

/-- The command for one of the times, run before the others. -/
theorem runAll_touch (hlocal : LocalTime localTime readLocal time.sec)
    (hvalid : Valid time) (path : Str) {flag : String} {times : Times}
    (rest : List Command) :
    runAll (runTouch readLocal)
        ((touch localTime path time flag).toList ++ rest) times =
      runAll (runTouch readLocal) rest
        (if arrives time = .old then times
          else times.set flag.toList (arrives time)) := by
  unfold touch arrives
  by_cases homit : time.nsec = utimeOmit
  · simp [homit]
  · by_cases hnow : time.nsec = utimeNow
    · rw [if_neg homit, if_pos hnow, if_neg homit, if_pos hnow]
      rfl
    · obtain ⟨hpos, hlt⟩ := (hvalid.resolve_left homit).resolve_left hnow
      rw [if_neg homit, if_neg hnow, if_neg homit, if_neg hnow]
      dsimp only [Option.toList_some, List.cons_append, List.nil_append]
      rw [runAll, runTouch_at (readTime_local hlocal hpos hlt)]
      rfl

/-- Both times, each as it arrives. -/
theorem handleUtimens_eq {atime mtime : Rpc.Timespec}
    (hatime : LocalTime localTime readLocal atime.sec)
    (hmtime : LocalTime localTime readLocal mtime.sec)
    (hvalid : Valid atime) (hvalid' : Valid mtime) (path : Str) :
    handleUtimens (runTouch readLocal) (some localTime) path atime mtime
        ⟨.old, .old⟩ = (.ok (), ⟨arrives atime, arrives mtime⟩) := by
  have hcommands : (Request.utimens path atime mtime).commands localTime
      (fun _ => none) = (touch localTime path atime "-a").toList ++
        ((touch localTime path mtime "-m").toList ++ []) := by
    simp only [Request.commands, List.filterMap_cons, List.filterMap_nil]
    cases touch localTime path atime "-a" <;>
      cases touch localTime path mtime "-m" <;> rfl
  rw [handleUtimens, hcommands, runAll_touch hatime hvalid,
    runAll_touch hmtime hvalid']
  split_ifs with hold hold' hold'
  · rw [hold, hold']
    rfl
  · rw [hold]
    rfl
  · rw [hold']
    rfl
  · rfl

end Commands

/-- Both times arrive as they were asked for exactly when the nanoseconds of
each are zero or have nine digits. -/
theorem utimens_exact_iff {localTime : Int64 → Str}
    {readLocal : Str → Option Int} {atime mtime : Rpc.Timespec}
    (hatime : LocalTime localTime readLocal atime.sec)
    (hmtime : LocalTime localTime readLocal mtime.sec)
    (hvalid : Valid atime) (hvalid' : Valid mtime) (path : Str) :
    handleUtimens (runTouch readLocal) (some localTime) path atime mtime
        ⟨.old, .old⟩ = (.ok (), ⟨instantOf atime, instantOf mtime⟩) ↔
      Exact atime ∧ Exact mtime := by
  rw [handleUtimens_eq hatime hmtime hvalid hvalid', Prod.mk.injEq,
    Times.mk.injEq, arrives_eq_iff hvalid, arrives_eq_iff hvalid']
  exact and_iff_right rfl

/-- Five seconds after the epoch, where the zone is UTC. -/
def fiveSeconds (_ : Int64) : Str :=
  "197001010000.05".toList

theorem localTime_fiveSeconds :
    LocalTime fiveSeconds (fun _ => some 5) 5 where
  shape := ⟨"197001010000".toList, '0', '5', by decide, rfl⟩
  exact := rfl

/-- Half a second more for the one, and nothing for the other. -/
theorem utimens_exact_iff_half :
    handleUtimens (runTouch fun _ => some 5) (some fiveSeconds) "/f".toList
        ⟨5, 500000000⟩ ⟨5, utimeOmit⟩ ⟨.old, .old⟩ =
      (.ok (), ⟨.at 5500000000, .old⟩) :=
  (utimens_exact_iff localTime_fiveSeconds localTime_fiveSeconds
    (.inr (.inr (by decide))) (.inl rfl) "/f".toList).mpr
      ⟨.inr (.inr (.inr (by decide))), .inl rfl⟩

/-- Five milliseconds arrive as half a second. -/
theorem milliseconds_arrive_larger :
    LocalTime fiveSeconds (fun _ => some 5) 5 ∧ Valid ⟨5, 5000000⟩ ∧
    handleUtimens (runTouch fun _ => some 5) (some fiveSeconds) "/f".toList
        ⟨5, 5000000⟩ ⟨5, utimeOmit⟩ ⟨.old, .old⟩ =
      (.ok (), ⟨.at 5500000000, .old⟩) ∧
    instantOf ⟨5, 5000000⟩ = .at 5005000000 := by
  refine ⟨localTime_fiveSeconds, .inr (.inr (by decide)), ?_, by decide⟩
  rfl

end Adb

end Madbfs
