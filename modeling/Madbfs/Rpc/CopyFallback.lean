/-
The server's `copy_file_range` where the system call is missing: a loop that
reads a buffer and writes all of it.  Both calls may transfer less than they
are asked for.  What they answer may depend on everything that was answered
before, so the answers are a function of the history.  Which calls a copy needs,
and whether one of them fails, is said of these answers alone.
-/
import Madbfs.Bytes
import Madbfs.Rpc.Message

namespace Madbfs

namespace Rpc

open Bytes

/-- The answers that calls of `read` and `write` have given. -/
abbrev History := List (Except Errc Nat)

/-- Some call has failed. -/
def History.Failed (history : History) : Prop :=
  ∃ err, Except.error err ∈ history

/-- How many of `n` bytes are transferred: if there are any, at least one. -/
abbrev Transferred (n : Nat) :=
  { k : Nat // k ≤ n ∧ (0 < n → 0 < k) }

/-- What `read` and `write` answer when there are `n` bytes they can
transfer. -/
structure Transfers where
  read : History → (n : Nat) → Except Errc (Transferred n)
  write : History → (n : Nat) → Except Errc (Transferred n)

/-- Calls that transfer everything. -/
instance : Inhabited Transfers :=
  ⟨{ read := fun _ n => .ok ⟨n, Nat.le_refl n, id⟩
     write := fun _ n => .ok ⟨n, Nat.le_refl n, id⟩ }⟩

/-- The positions of the two descriptors, the content of the output, and
`copied`. -/
structure CopyState where
  history : History
  inPos : Nat
  outPos : Nat
  output : List Byte
  copied : Nat

namespace CopyState

/-- A call that has failed. -/
def fail (s : CopyState) (err : Errc) : CopyState :=
  { s with history := s.history ++ [.error err] }

/-- A `read` of `k` bytes. -/
def advance (s : CopyState) (k : Nat) : CopyState :=
  { s with history := s.history ++ [.ok k], inPos := s.inPos + k }

@[simp] theorem copied_advance (s : CopyState) (k : Nat) :
    (s.advance k).copied = s.copied :=
  rfl

/-- A `write` that has taken these bytes. -/
def put (s : CopyState) (bytes : List Byte) : CopyState where
  history := s.history ++ [.ok bytes.length]
  inPos := s.inPos
  outPos := s.outPos + bytes.length
  output := overlay s.output s.outPos bytes
  copied := s.copied + bytes.length

end CopyState

/-- The inner loop, on what is left of the buffer.  It ends early with the
error of a `write`. -/
def writeLoop (sys : Transfers) (bytes : List Byte) (s : CopyState) :
    CopyState × Option Errc :=
  if hpos : 0 < bytes.length then
    match sys.write s.history bytes.length with
    | .error err => (s.fail err, some err)
    | .ok ⟨k, hk⟩ =>
        have : bytes.length - k < bytes.length := Nat.sub_lt hpos (hk.2 hpos)
        writeLoop sys (bytes.drop k) (s.put (bytes.take k))
  else (s, none)
termination_by bytes.length
decreasing_by rwa [List.length_drop]

/-- What the inner loop does: it writes the bytes up to some point, which is
their end unless a call has failed. -/
structure Writes (bytes : List Byte) (s : CopyState)
    (x : CopyState × Option Errc) (n : Nat) : Prop where
  le : n ≤ bytes.length
  inPos : x.1.inPos = s.inPos
  outPos : x.1.outPos = s.outPos + n
  output : x.1.output = overlay s.output s.outPos (bytes.take n)
  copied : x.1.copied = s.copied + n
  whole : x.2 = none → n = bytes.length
  failed : ∀ err, x.2 = some err → .error err ∈ x.1.history
  passed : x.2 = none → x.1.history.Failed → s.history.Failed

theorem History.Failed.of_append {history : History} {k : Nat}
    (hfailed : Failed (history ++ [.ok k])) : history.Failed := by
  obtain ⟨err, hmem⟩ := hfailed
  rcases List.mem_append.mp hmem with hold | hnew
  · exact ⟨err, hold⟩
  · cases List.mem_singleton.mp hnew

theorem writeLoop_writes (sys : Transfers) (bytes : List Byte)
    (s : CopyState) : ∃ n, Writes bytes s (writeLoop sys bytes s) n := by
  fun_induction writeLoop sys bytes s with
  | case1 bytes s hpos err hwrite =>
      exact ⟨0, {
        le := Nat.zero_le _
        inPos := rfl
        outPos := rfl
        output := (overlay_nil _ _).symm
        copied := rfl
        whole := fun h => by cases h
        failed := fun err' h => by
          cases h
          exact List.mem_append_right _ List.mem_cons_self
        passed := fun h => by cases h }⟩
  | case2 bytes s hpos k hk hwrite _ ih =>
      obtain ⟨n, h⟩ := ih
      have htaken : (bytes.take k).length = k := by
        rw [List.length_take]
        omega
      have hle := h.le
      rw [List.length_drop] at hle
      refine ⟨k + n, {
        le := by omega
        inPos := h.inPos
        outPos := ?_
        output := ?_
        copied := ?_
        whole := fun hnone => ?_
        failed := h.failed
        passed := fun hnone hfailed =>
          (h.passed hnone hfailed).of_append }⟩
      · rw [h.outPos, CopyState.put, htaken, Nat.add_assoc]
      · have hsplit : bytes.take (k + n) =
            bytes.take k ++ (bytes.drop k).take n := List.take_add
        rw [h.output, hsplit, ← overlay_append, CopyState.put]
      · rw [h.copied, CopyState.put, htaken, Nat.add_assoc]
      · have hwhole := h.whole hnone
        rw [List.length_drop] at hwhole
        omega
  | case3 bytes s hpos =>
      exact ⟨0, {
        le := Nat.zero_le _
        inPos := rfl
        outPos := rfl
        output := (overlay_nil _ _).symm
        copied := rfl
        whole := fun _ => by omega
        failed := fun err h => by cases h
        passed := fun _ hfailed => hfailed }⟩

theorem writeLoop_copied {sys : Transfers} {bytes : List Byte}
    {s s' : CopyState} (hwrite : writeLoop sys bytes s = (s', none)) :
    s'.copied = s.copied + bytes.length := by
  obtain ⟨n, h⟩ := writeLoop_writes sys bytes s
  rw [hwrite] at h
  rw [h.copied, h.whole rfl]

def bufferSize : Nat := 64 * 1024

/-- The outer loop. -/
def copyLoop (sys : Transfers) (input : List Byte) (size : Nat)
    (s : CopyState) : CopyState × Option Errc :=
  if hlt : s.copied < size then
    let toRead := min bufferSize (size - s.copied)
    let bytes := slice input s.inPos toRead
    match sys.read s.history bytes.length with
    | .error err => (s.fail err, some err)
    | .ok ⟨k, hk⟩ =>
        if hzero : k = 0 then (s.advance k, none)
        else match hwrite : writeLoop sys (bytes.take k) (s.advance k) with
          | (s₁, some err) => (s₁, some err)
          | (s₁, none) =>
              have : size - s₁.copied < size - s.copied := by
                have hcopied := writeLoop_copied hwrite
                rw [List.length_take, CopyState.copied_advance] at hcopied
                omega
              copyLoop sys input size s₁
  else (s, none)
termination_by size - s.copied

/-- The fallback of `handle_req` for `CopyFileRange`, between two files that
have been opened and whose descriptors stand at the offsets. -/
def copyFallback (sys : Transfers) (input output : List Byte)
    (inOff outOff : Nat) (size : UInt64) : FallibleResponse × CopyState :=
  match copyLoop sys input size.toNat ⟨[], inOff, outOff, output, 0⟩ with
  | (s, some err) => (.failed .copyFileRange err, s)
  | (s, none) => (.success (.copyFileRange (UInt64.ofNat s.copied)), s)

/-- What the outer loop does, from the start of a round on. -/
structure Copies (input : List Byte) (size : Nat) (s : CopyState)
    (x : CopyState × Option Errc) (n : Nat) : Prop where
  le : s.copied + n ≤ size ∨ n = 0
  output : x.1.output = overlay s.output s.outPos (slice input s.inPos n)
  copied : x.1.copied = s.copied + n
  whole : x.2 = none → n = min (size - s.copied) (input.length - s.inPos)
  failed : ∀ err, x.2 = some err → .error err ∈ x.1.history
  passed : x.2 = none → x.1.history.Failed → s.history.Failed

/-- The bytes of a round are the next ones of the input. -/
theorem Writes.of_round {input : List Byte} {s : CopyState} {toRead k n : Nat}
    {x : CopyState × Option Errc}
    (h : Writes ((slice input s.inPos toRead).take k) (s.advance k) x n)
    (hk : k ≤ (slice input s.inPos toRead).length) :
    n ≤ k ∧ k ≤ toRead ∧ k ≤ input.length - s.inPos ∧
      x.1.output = overlay s.output s.outPos (slice input s.inPos n) := by
  have hle := h.le
  rw [List.length_take] at hle
  rw [length_slice] at hk
  refine ⟨by omega, by omega, by omega, ?_⟩
  have htake : ((slice input s.inPos toRead).take k).take n =
      slice input s.inPos n := by
    rw [slice, slice, List.take_take, List.take_take,
      Nat.min_eq_left (show n ≤ k by omega),
      Nat.min_eq_left (show n ≤ toRead by omega)]
  rw [← htake]
  exact h.output

theorem copyLoop_copies (sys : Transfers) (input : List Byte) (size : Nat)
    (s : CopyState) :
    ∃ n, Copies input size s (copyLoop sys input size s) n := by
  fun_induction copyLoop sys input size s with
  | case1 s hlt toRead bytes err hread =>
      exact ⟨0, {
        le := .inr rfl
        output := (overlay_nil _ _).symm
        copied := rfl
        whole := fun h => by cases h
        failed := fun err' h => by
          cases h
          exact List.mem_append_right _ List.mem_cons_self
        passed := fun h => by cases h }⟩
  | case2 s hlt toRead bytes hk hread =>
      -- the end of the input
      have hempty : bytes.length = 0 := by
        by_contra hne
        exact absurd (hk.2 (Nat.pos_of_ne_zero hne)) (Nat.lt_irrefl 0)
      have hend : input.length - s.inPos = 0 := by
        have hread : 0 < toRead := by
          simp only [toRead, bufferSize]
          omega
        simp only [bytes, length_slice] at hempty
        omega
      exact ⟨0, {
        le := .inr rfl
        output := (overlay_nil _ _).symm
        copied := rfl
        whole := fun _ => by rw [hend, Nat.min_zero]
        failed := fun err h => by cases h
        passed := fun _ hfailed => hfailed.of_append }⟩
  | case3 s hlt toRead bytes k hk hread hzero s₁ err hwrite =>
      obtain ⟨n, h⟩ := writeLoop_writes sys (bytes.take k) (s.advance k)
      rw [hwrite] at h
      obtain ⟨hn, hread, -, houtput⟩ := h.of_round hk.1
      exact ⟨n, {
        le := .inl (by omega)
        output := houtput
        copied := h.copied
        whole := fun hnone => by cases hnone
        failed := h.failed
        passed := fun hnone => by cases hnone }⟩
  | case4 s hlt toRead bytes k hk hread hzero s₁ hwrite _ ih =>
      obtain ⟨m, h⟩ := writeLoop_writes sys (bytes.take k) (s.advance k)
      rw [hwrite] at h
      obtain ⟨hm, hread, hinput, houtput⟩ := h.of_round hk.1
      obtain ⟨n, hrest⟩ := ih
      have hwhole := h.whole rfl
      rw [List.length_take, Nat.min_eq_left hk.1] at hwhole
      subst hwhole
      have hin : s₁.inPos = s.inPos + m := h.inPos
      have hout : s₁.outPos = s.outPos + m := h.outPos
      have hcopied : s₁.copied = s.copied + m := h.copied
      have hle := hrest.le
      have hlength : (slice input s.inPos m).length = m := by
        rw [length_slice]
        omega
      refine ⟨m + n, {
        le := .inl (by omega)
        output := ?_
        copied := by rw [hrest.copied, hcopied, Nat.add_assoc]
        whole := fun hnone => ?_
        failed := hrest.failed
        passed := fun hnone hfailed =>
          (h.passed rfl (hrest.passed hnone hfailed)).of_append }⟩
      · have happend := overlay_append s.output s.outPos
          (slice input s.inPos m) (slice input (s.inPos + m) n)
        rw [hlength, slice_append] at happend
        rw [hrest.output, hin, hout, houtput, happend]
      · have hlast := hrest.whole hnone
        omega
  | case5 s hlt =>
      exact ⟨0, {
        le := .inr rfl
        output := (overlay_nil _ _).symm
        copied := rfl
        whole := fun _ => by omega
        failed := fun err h => by cases h
        passed := fun _ hfailed => hfailed }⟩

/-- How the fallback ends. -/
theorem copyFallback_cases (sys : Transfers) (input output : List Byte)
    (inOff outOff : Nat) (size : UInt64) :
    ∃ n ≤ size.toNat,
      (copyFallback sys input output inOff outOff size).2.output =
        overlay output outOff (slice input inOff n) ∧
      (¬ (copyFallback sys input output inOff outOff size).2.history.Failed ∧
          n = min size.toNat (input.length - inOff) ∧
          (copyFallback sys input output inOff outOff size).1 =
            .success (.copyFileRange (UInt64.ofNat n)) ∨
        ∃ err,
          .error err ∈
            (copyFallback sys input output inOff outOff size).2.history ∧
          (copyFallback sys input output inOff outOff size).1 =
            .failed .copyFileRange err) := by
  obtain ⟨n, h⟩ := copyLoop_copies sys input size.toNat
    ⟨[], inOff, outOff, output, 0⟩
  have hle : n ≤ size.toNat := by
    rcases h.le with hle | hzero
    · exact Nat.le_trans (Nat.le_add_left n 0) hle
    · omega
  refine ⟨n, hle, ?_⟩
  unfold copyFallback
  generalize copyLoop sys input size.toNat ⟨[], inOff, outOff, output, 0⟩ = x
    at h
  obtain ⟨s, _ | err⟩ := x
  · refine ⟨h.output, .inl ⟨?_, h.whole rfl, ?_⟩⟩
    · intro hfailed
      obtain ⟨err, hmem⟩ := h.passed rfl hfailed
      cases hmem
    · dsimp only
      rw [show s.copied = n from h.copied.trans (Nat.zero_add n)]
  · exact ⟨h.output, .inr ⟨err, h.failed err rfl, rfl⟩⟩

/-- A call of `read` or of `write` that can transfer `n` bytes. -/
inductive Io where
  | read (n : Nat)
  | write (n : Nat)

/-- How many bytes of the range have been read and written, and the answers so
far. -/
structure Progress where
  read : Nat
  written : Nat
  history : History

namespace Transfers

variable (sys : Transfers) (input : List Byte) (inOff size : Nat)

/-- The call that the copy of a range needs next: what has been read is
written first. -/
def next (p : Progress) : Option Io :=
  if p.written < p.read then some (.write (p.read - p.written))
  else if p.written < size then
    some (.read (slice input (inOff + p.read)
      (min bufferSize (size - p.written))).length)
  else none

/-- One call and its answer.  At the end of the copy this is the log of all
answers: no call is needed, the call failed, or the input has no bytes left. -/
def turn (p : Progress) : History ⊕ Progress :=
  match next input inOff size p with
  | none => .inl p.history
  | some (.read n) =>
      match sys.read p.history n with
      | .error err => .inl (p.history ++ [.error err])
      | .ok k =>
          if k.1 = 0 then .inl (p.history ++ [.ok 0])
          else .inr ⟨p.read + k, p.written, p.history ++ [.ok k.1]⟩
  | some (.write n) =>
      match sys.write p.history n with
      | .error err => .inl (p.history ++ [.error err])
      | .ok k => .inr ⟨p.read, p.written + k, p.history ++ [.ok k.1]⟩

/-- The calls of a copy are made up to its end. -/
inductive Replays (log : History) : Progress → Prop
  | stop (p : Progress) (hturn : turn sys input inOff size p = .inl log) :
      Replays log p
  | go (p p' : Progress) (hturn : turn sys input inOff size p = .inr p')
      (hrest : Replays log p') : Replays log p

variable {sys input inOff size}

/-- A copy has one log. -/
theorem Replays.unique {log log' : History} {p : Progress}
    (h : Replays sys input inOff size log p)
    (h' : Replays sys input inOff size log' p) : log = log' := by
  induction h with
  | stop p hturn =>
      cases h' with
      | stop _ hturn' => exact Sum.inl.inj (hturn.symm.trans hturn')
      | go _ p' hturn' hrest' => cases hturn.symm.trans hturn'
  | go p p' hturn hrest ih =>
      cases h' with
      | stop _ hturn' => cases hturn.symm.trans hturn'
      | go _ p₁ hturn' hrest' =>
          obtain rfl := Sum.inr.inj (hturn.symm.trans hturn')
          exact ih hrest'

end Transfers

open Transfers

section

variable (sys : Transfers) (input : List Byte) (inOff size : Nat)

/-- The calls of the inner loop. -/
theorem writeLoop_replays (bytes : List Byte) (s : CopyState) {read : Nat}
    (hread : read = s.copied + bytes.length) :
    (∀ err, (writeLoop sys bytes s).2 = some err →
      Replays sys input inOff size (writeLoop sys bytes s).1.history
        ⟨read, s.copied, s.history⟩) ∧
    ((writeLoop sys bytes s).2 = none → ∀ log,
      Replays sys input inOff size log
        ⟨read, read, (writeLoop sys bytes s).1.history⟩ →
      Replays sys input inOff size log ⟨read, s.copied, s.history⟩) := by
  fun_induction writeLoop sys bytes s with
  | case1 bytes s hpos err hwrite =>
      have hnext : next input inOff size ⟨read, s.copied, s.history⟩ =
          some (.write bytes.length) := by
        rw [next, if_pos (by dsimp only; omega), hread, Nat.add_sub_cancel_left]
      refine ⟨fun err' h => ?_, fun h => by cases h⟩
      refine .stop _ ?_
      rw [turn, hnext]
      dsimp only
      rw [hwrite]
      rfl
  | case2 bytes s hpos k hk hwrite _ ih =>
      have hnext : next input inOff size ⟨read, s.copied, s.history⟩ =
          some (.write bytes.length) := by
        rw [next, if_pos (by dsimp only; omega), hread, Nat.add_sub_cancel_left]
      have htaken : (bytes.take k).length = k := by
        rw [List.length_take]
        omega
      have hturn : turn sys input inOff size ⟨read, s.copied, s.history⟩ =
          .inr ⟨read, (s.put (bytes.take k)).copied,
            (s.put (bytes.take k)).history⟩ := by
        rw [turn, hnext]
        dsimp only [CopyState.put]
        rw [hwrite, htaken]
      obtain ⟨hfailed, hdone⟩ := ih (by
        rw [CopyState.put, htaken, List.length_drop]
        dsimp only
        omega)
      exact ⟨fun err h => .go _ _ hturn (hfailed err h),
        fun h log hlog => .go _ _ hturn (hdone h log hlog)⟩
  | case3 bytes s hpos =>
      refine ⟨fun err h => (by cases h), fun _ log hlog => ?_⟩
      rwa [show s.copied = read by omega]

/-- At the start of a round everything that was read is written. -/
theorem turn_round (s : CopyState) (hin : s.inPos = inOff + s.copied)
    (hlt : s.copied < size) :
    turn sys input inOff size ⟨s.copied, s.copied, s.history⟩ =
      match sys.read s.history (slice input s.inPos
        (min bufferSize (size - s.copied))).length with
      | .error err => .inl (s.history ++ [.error err])
      | .ok k =>
          if k.1 = 0 then .inl (s.history ++ [.ok 0])
          else .inr ⟨s.copied + k, s.copied, s.history ++ [.ok k.1]⟩ := by
  have hnext : next input inOff size ⟨s.copied, s.copied, s.history⟩ =
      some (.read (slice input s.inPos
        (min bufferSize (size - s.copied))).length) := by
    rw [next, if_neg (Nat.lt_irrefl _), if_pos hlt, hin]
  rw [turn, hnext]
  dsimp only
  cases sys.read s.history _ <;> rfl

/-- The calls of the outer loop. -/
theorem copyLoop_replays (s : CopyState) (hin : s.inPos = inOff + s.copied) :
    Replays sys input inOff size (copyLoop sys input size s).1.history
      ⟨s.copied, s.copied, s.history⟩ := by
  fun_induction copyLoop sys input size s with
  | case1 s hlt toRead bytes err hread =>
      refine .stop _ ?_
      rw [turn_round sys input inOff size s hin hlt, hread]
      rfl
  | case2 s hlt toRead bytes hk hread =>
      refine .stop _ ?_
      rw [turn_round sys input inOff size s hin hlt, hread]
      rfl
  | case3 s hlt toRead bytes k hk hread hzero s₁ err hwrite =>
      have hturn := turn_round sys input inOff size s hin hlt
      rw [hread] at hturn
      have htaken : (bytes.take k).length = k := by
        rw [List.length_take, Nat.min_eq_left hk.1]
      have hloop := (writeLoop_replays sys input inOff size (bytes.take k)
        (s.advance k) (congrArg (s.copied + ·) htaken.symm)).1 err
      rw [hwrite] at hloop
      exact .go _ _ (hturn.trans (if_neg hzero)) (hloop rfl)
  | case4 s hlt toRead bytes k hk hread hzero s₁ hwrite _ ih =>
      have hturn := turn_round sys input inOff size s hin hlt
      rw [hread] at hturn
      have htaken : (bytes.take k).length = k := by
        rw [List.length_take, Nat.min_eq_left hk.1]
      have hloop := (writeLoop_replays sys input inOff size (bytes.take k)
        (s.advance k) (congrArg (s.copied + ·) htaken.symm)).2
      obtain ⟨n, hwrites⟩ := writeLoop_writes sys (bytes.take k) (s.advance k)
      rw [hwrite] at hloop hwrites
      have hcopied : s₁.copied = s.copied + k := by
        rw [hwrites.copied, hwrites.whole rfl, htaken]
        rfl
      have hrest := ih (by rw [hwrites.inPos, hcopied, CopyState.advance, hin,
        Nat.add_assoc])
      rw [hcopied] at hrest
      exact .go _ _ (hturn.trans (if_neg hzero)) (hloop rfl _ hrest)
  | case5 s hlt =>
      refine .stop _ ?_
      rw [turn, next, if_neg (Nat.lt_irrefl _), if_neg hlt]

theorem copyFallback_replays (output : List Byte) (outOff : Nat)
    (size : UInt64) : Replays sys input inOff size.toNat
      (copyFallback sys input output inOff outOff size).2.history
      ⟨0, 0, []⟩ := by
  have hreplays := copyLoop_replays sys input inOff size.toNat
    ⟨[], inOff, outOff, output, 0⟩ rfl
  unfold copyFallback
  generalize copyLoop sys input size.toNat ⟨[], inOff, outOff, output, 0⟩ = x
    at hreplays
  obtain ⟨s, _ | err⟩ := x <;> exact hreplays

/-- The calls of a copy come to an end.  If none of them fails, the fallback
copies what there is of the range and reports its size; if one fails, it
reports that.  It never writes more than `size` bytes. -/
theorem copyFallback_exact (output : List Byte) (outOff : Nat)
    (size : UInt64) :
    (∃ log, Replays sys input inOff size.toNat log ⟨0, 0, []⟩) ∧
    ∀ log, Replays sys input inOff size.toNat log ⟨0, 0, []⟩ →
      (¬ log.Failed →
        (copyFallback sys input output inOff outOff size).1 =
            .success (.copyFileRange (UInt64.ofNat
              (min size.toNat (input.length - inOff)))) ∧
        (copyFallback sys input output inOff outOff size).2.output =
          overlay output outOff
            (slice input inOff (min size.toNat (input.length - inOff)))) ∧
      (log.Failed → ∃ err, .error err ∈ log ∧
        (copyFallback sys input output inOff outOff size).1 =
          .failed .copyFileRange err) ∧
      ∃ n ≤ size.toNat,
        (copyFallback sys input output inOff outOff size).2.output =
          overlay output outOff (slice input inOff n) := by
  have hreplays := copyFallback_replays sys input inOff output outOff size
  refine ⟨⟨_, hreplays⟩, fun log hlog => ?_⟩
  obtain rfl := hreplays.unique hlog
  obtain ⟨n, hle, houtput, hend⟩ :=
    copyFallback_cases sys input output inOff outOff size
  rcases hend with ⟨hnot, rfl, hresp⟩ | ⟨err, hmem, hresp⟩
  · exact ⟨fun _ => ⟨hresp, houtput⟩, fun hfailed => absurd hfailed hnot,
      _, hle, houtput⟩
  · exact ⟨fun hnot => absurd ⟨err, hmem⟩ hnot,
      fun _ => ⟨err, hmem, hresp⟩, n, hle, houtput⟩

end

/-- Calls that transfer two bytes, or one, at most. -/
def shortTransfers : Transfers where
  read _ n := .ok ⟨min n 2, by omega, by omega⟩
  write _ n := .ok ⟨min n 1, by omega, by omega⟩

/-- The same, but the second `write` has no room. -/
def fullTransfers : Transfers where
  read := shortTransfers.read
  write history n :=
    if history = [.ok 2, .ok 1] then .error Errc.ioError
    else shortTransfers.write history n

/-- Three of the four bytes from offset 1 on are copied behind one byte, two
reads and three writes.  With no room for the second byte that is reported, and
the first is written. -/
theorem copyFallback_exact_short :
    let done := copyFallback shortTransfers [1, 2, 3, 4, 5] [9, 9] 1 1 3
    let failed := copyFallback fullTransfers [1, 2, 3, 4, 5] [9, 9] 1 1 3
    (done.1 = .success (.copyFileRange 3) ∧ done.2.output = [9, 2, 3, 4]) ∧
      ∃ err, failed.1 = .failed .copyFileRange err := by
  have hdone : Replays shortTransfers [1, 2, 3, 4, 5] 1 3
      [.ok 2, .ok 1, .ok 1, .ok 1, .ok 1] ⟨0, 0, []⟩ :=
    .go _ _ rfl (.go _ _ rfl (.go _ _ rfl (.go _ _ rfl (.go _ _ rfl
      (.stop _ rfl)))))
  have hfailed : Replays fullTransfers [1, 2, 3, 4, 5] 1 3
      [.ok 2, .ok 1, .error Errc.ioError] ⟨0, 0, []⟩ :=
    .go _ _ rfl (.go _ _ rfl (.stop _ rfl))
  have hnone : ¬ History.Failed [.ok 2, .ok 1, .ok 1, .ok 1, .ok 1] := by
    rintro ⟨err, hmem⟩
    simp at hmem
  obtain ⟨hresp, houtput⟩ := ((copyFallback_exact shortTransfers
    [1, 2, 3, 4, 5] 1 [9, 9] 1 3).2 _ hdone).1 hnone
  obtain ⟨err, -, herr⟩ := ((copyFallback_exact fullTransfers
    [1, 2, 3, 4, 5] 1 [9, 9] 1 3).2 _ hfailed).2.1
    ⟨Errc.ioError, by simp⟩
  exact ⟨⟨hresp, houtput⟩, err, herr⟩

def functionNotSupported : Errc := ⟨38⟩

def crossDeviceLink : Errc := ⟨18⟩

/-- The other calls of the handler.  `lseek` returns the position, which no
negative offset has, and the system call copies a part of the bytes that are
there. -/
structure CopyCalls extends Transfers where
  openIn : Except Errc Unit
  openOut : Except Errc Unit
  lseek : (off : Int64) → Except Errc { pos : Nat // (pos : Int) = off.toInt }
  copyFileRange : (n : Nat) → Except Errc (Transferred n)

/-- The descriptors of both files at their offsets. -/
def CopyCalls.openBoth (sys : CopyCalls) (inOff outOff : Int64) :
    Except Errc ({ pos : Nat // (pos : Int) = inOff.toInt } ×
      { pos : Nat // (pos : Int) = outOff.toInt }) := do
  sys.openIn
  let inPos ← sys.lseek inOff
  sys.openOut
  let outPos ← sys.lseek outOff
  return (inPos, outPos)

/-- `handle_req` for `CopyFileRange`, with the content of the output after it.
`impl` is `m_copy_file_range_impl`. -/
def handleCopyFileRange (sys : CopyCalls) (impl : Bool)
    (input output : List Byte) (inOff outOff : Int64) (size : UInt64) :
    FallibleResponse × List Byte :=
  match sys.openBoth inOff outOff with
  | .error err => (.failed .copyFileRange err, output)
  | .ok (inPos, outPos) =>
      let fallback := copyFallback sys.toTransfers input output inPos outPos
        size
      if impl then
        match sys.copyFileRange (slice input inPos size.toNat).length with
        | .ok k =>
            (.success (.copyFileRange (UInt64.ofNat k)),
              overlay output outPos (slice input inPos k))
        | .error err =>
            if err = functionNotSupported ∨ err = crossDeviceLink then
              (fallback.1, fallback.2.output)
            else (.failed .copyFileRange err, output)
      else (fallback.1, fallback.2.output)

/-- However the range is copied: a success counts the bytes that are written,
which are the next ones of the input and not more than `size`. -/
theorem handleCopyFileRange_success {sys : CopyCalls} {impl : Bool}
    {input output output' : List Byte} {inOff outOff : Int64} {size : UInt64}
    {resp : Response (List Byte)}
    (hhandle : handleCopyFileRange sys impl input output inOff outOff size =
      (.success resp, output')) :
    ∃ inPos outPos n : Nat, (inPos : Int) = inOff.toInt ∧
      (outPos : Int) = outOff.toInt ∧ n ≤ size.toNat ∧
      resp = .copyFileRange (UInt64.ofNat n) ∧
      output' = overlay output outPos (slice input inPos n) := by
  unfold handleCopyFileRange at hhandle
  split at hhandle
  · cases hhandle
  · next inPos outPos hopen =>
      have hfallback :
          ((copyFallback sys.toTransfers input output inPos outPos size).1,
            (copyFallback sys.toTransfers input output inPos outPos
              size).2.output) = (FallibleResponse.success resp, output') →
          ∃ n ≤ size.toNat, resp = .copyFileRange (UInt64.ofNat n) ∧
            output' = overlay output outPos (slice input inPos n) := by
        intro heq
        obtain ⟨hresp, rfl⟩ := Prod.mk.inj heq
        obtain ⟨n, hle, houtput, hend⟩ :=
          copyFallback_cases sys.toTransfers input output inPos outPos size
        rcases hend with ⟨-, -, hsuccess⟩ | ⟨err, -, hfailed⟩
        · rw [hresp] at hsuccess
          cases hsuccess
          exact ⟨n, hle, rfl, houtput⟩
        · rw [hresp] at hfailed
          cases hfailed
      have hends : ∃ n ≤ size.toNat, resp = .copyFileRange (UInt64.ofNat n) ∧
          output' = overlay output outPos (slice input inPos n) := by
        dsimp only at hhandle
        split_ifs at hhandle
        · split at hhandle
          · next k hk =>
              cases hhandle
              have hle := k.2.1
              have hlength := length_slice input inPos size.toNat
              exact ⟨k, by omega, rfl, rfl⟩
          · split_ifs at hhandle
            · exact hfallback hhandle
            · cases hhandle
        · exact hfallback hhandle
      obtain ⟨n, hle, hresp, houtput⟩ := hends
      exact ⟨inPos, outPos, n, inPos.2, outPos.2, hle, hresp, houtput⟩

end Rpc

end Madbfs
