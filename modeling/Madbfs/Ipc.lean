/-
Messages on the IPC socket.  A message is sent as its length in network order
and its bytes.  A reader refuses a message that is longer than its limit, but
it takes the message off the stream all the same, so that the next one is read
from its start.
-/
import Madbfs.Rpc.Framing

namespace Madbfs

namespace Ipc

open Bytes NetBytes Rpc

/-- What `async::write_lv` sends. -/
def frame (msg : List Byte) : List Byte :=
  toNetBytes (UInt32.ofNat msg.length) ++ msg

/-- `async::write_lv`.  The stream holds what is not read yet. -/
def writeLv (stream msg : List Byte) : List Byte :=
  stream ++ frame msg

/-- `async::read_lv` with a buffer that can grow.  It returns the number of
bytes, which are at the front of the buffer. -/
def readLv (out : List Byte) (max : Nat) :
    Text (Except Errc Nat × List Byte) := do
  let lenBuf ← readExact 4
  let len := (fromNetBytes UInt32 lenBuf).toNat
  if len > max then
    discard len
    return (.error Errc.messageSize, out)
  else
    let out := if len > out.length then resize out len else out
    let bytes ← readExact len
    return (.ok bytes.length, overlay out 0 bytes)

/-- `async::read_lv` with a buffer of a fixed size. -/
def readLvSpan (out : List Byte) : Text (Except Errc Nat × List Byte) := do
  let lenBuf ← readExact 4
  let len := (fromNetBytes UInt32 lenBuf).toNat
  if len > out.length then
    discard len
    return (.error Errc.messageSize, out)
  else
    let bytes ← readExact len
    return (.ok bytes.length, overlay out 0 bytes)

def maxMsgLen : Nat := 4 * 1024

/-- `receive_message`. -/
def receiveMessage : Text (Except Errc (List Byte)) := do
  let (res, buffer) ← readLv [] maxMsgLen
  return res.map fun _ => buffer

/-- `send_message`. -/
def sendMessage (stream msg : List Byte) : List Byte :=
  writeLv stream msg

/-- A buffer that is as large as its limit does not grow. -/
theorem readLvSpan_eq (out : List Byte) :
    readLvSpan out = readLv out out.length := by
  unfold readLvSpan readLv
  congr 1
  funext lenBuf
  dsimp only
  split_ifs <;> rfl

/-- The answer to a message: the message, or the error. -/
def Answers (max : Nat) (msg : List Byte)
    (res : Except Errc Nat × List Byte) : Prop :=
  (msg.length ≤ max → res.1 = .ok msg.length ∧ res.2.take msg.length = msg) ∧
  (max < msg.length → res.1 = .error Errc.messageSize)

theorem take_overlay_zero (out bytes : List Byte) :
    (overlay out 0 bytes).take bytes.length = bytes := by
  unfold overlay
  split_ifs with hempty
  · rw [hempty, List.take_zero, List.eq_nil_of_length_eq_zero hempty]
  · simp

theorem overlay_whole {out bytes : List Byte}
    (hlength : out.length = bytes.length) : overlay out 0 bytes = bytes := by
  have htake := take_overlay_zero out bytes
  rwa [List.take_of_length_le] at htake
  rcases Nat.eq_zero_or_pos bytes.length with hempty | hpos
  · rw [List.eq_nil_of_length_eq_zero hempty, overlay_nil, hlength, hempty]
    exact Nat.le_refl 0
  · rw [length_overlay _ _ hpos]
    omega

/-- A read in front of a message takes the message and nothing else. -/
theorem readLv_frame {msg : List Byte} (hmsg : msg.length < 2 ^ 32)
    (out rest : List Byte) (max : Nat) :
    readLv out max (frame msg ++ rest) =
      some (if msg.length > max then (.error Errc.messageSize, out)
        else (.ok msg.length, overlay
          (if msg.length > out.length then resize out msg.length else out) 0
          msg), rest) := by
  have hlen : (fromNetBytes UInt32
      (toNetBytes (UInt32.ofNat msg.length))).toNat = msg.length := by
    rw [fromNetBytes_toNetBytes]
    exact UInt32.toNat_ofNat_of_lt' hmsg
  have hfour : (toNetBytes (UInt32.ofNat msg.length)).length = 4 :=
    length_toNetBytes _
  have hhead := readExact_append (toNetBytes (UInt32.ofNat msg.length))
    (msg ++ rest) hfour
  rw [readLv, frame, List.append_assoc, Text.bind_on, hhead, Option.bind_some]
  dsimp only
  rw [hlen]
  by_cases hlong : msg.length > max
  · rw [if_pos hlong, if_pos hlong, Text.bind_on, discard_append]
    rfl
  · rw [if_neg hlong, if_neg hlong, Text.bind_on,
      readExact_append msg rest rfl]
    rfl

theorem readLv_answers {msg : List Byte} (hmsg : msg.length < 2 ^ 32)
    (out rest : List Byte) (max : Nat) :
    ∃ res, readLv out max (frame msg ++ rest) = some (res, rest) ∧
      Answers max msg res := by
  refine ⟨_, readLv_frame hmsg out rest max, ?_⟩
  split_ifs with hlong
  · exact ⟨fun hle => absurd hlong (Nat.not_lt_of_le hle), fun _ => rfl⟩
  all_goals
    exact ⟨fun _ => ⟨rfl, take_overlay_zero _ msg⟩,
      fun hlt => absurd hlt hlong⟩

/-- `receive_message` after `send_message`. -/
theorem receiveMessage_sendMessage {msg : List Byte}
    (hmsg : msg.length < 2 ^ 32) (rest : List Byte) :
    receiveMessage (sendMessage [] msg ++ rest) =
      some (if msg.length > maxMsgLen then .error Errc.messageSize
        else .ok msg, rest) := by
  have hgrown : overlay (if msg.length > 0 then resize [] msg.length else [])
      0 msg = msg := by
    apply overlay_whole
    split_ifs with hpos
    · exact length_resize _ _
    · exact (Nat.eq_zero_of_not_pos hpos).symm
  rw [receiveMessage, Text.bind_on, sendMessage, writeLv, List.nil_append,
    readLv_frame hmsg, List.length_nil, hgrown]
  split_ifs <;> rfl

/-- What a list of messages leaves on the stream. -/
def written (msgs : List (List Byte)) : List Byte :=
  msgs.foldl writeLv []

theorem foldl_writeLv (msgs : List (List Byte)) (stream : List Byte) :
    msgs.foldl writeLv stream = stream ++ msgs.flatMap frame := by
  induction msgs generalizing stream with
  | nil => simp
  | cons msg rest ih =>
      rw [List.foldl_cons, ih, writeLv, List.flatMap_cons, List.append_assoc]

theorem written_cons (msg : List Byte) (rest : List (List Byte)) :
    written (msg :: rest) = frame msg ++ written rest := by
  simp [written, foldl_writeLv, writeLv]

/-- Any number of messages is answered in order, each with its own buffer.
After the last of these calls the stream holds the other messages. -/
theorem readLv_written {msgs : List (List Byte)}
    (hmsgs : ∀ msg ∈ msgs, msg.length < 2 ^ 32) (max : Nat)
    {outs : List (List Byte)} (hcalls : outs.length ≤ msgs.length) :
    ∃ results, outs.mapM (fun out => readLv out max) (written msgs) =
        some (results, written (msgs.drop outs.length)) ∧
      List.Forall₂ (Answers max) (msgs.take outs.length) results := by
  induction outs generalizing msgs with
  | nil => exact ⟨[], rfl, .nil⟩
  | cons out outs ih =>
      cases msgs with
      | nil => cases hcalls
      | cons msg rest =>
          obtain ⟨hmsg, hrest⟩ := List.forall_mem_cons.mp hmsgs
          obtain ⟨res, hread, hanswers⟩ :=
            readLv_answers hmsg out (written rest) max
          obtain ⟨results, hreads, hall⟩ :=
            ih hrest (Nat.le_of_succ_le_succ hcalls)
          refine ⟨res :: results, ?_, .cons hanswers hall⟩
          rw [List.mapM_cons, written_cons, Text.bind_on, hread,
            Option.bind_some, Text.bind_on, hreads]
          rfl

/-- Three bytes are refused, and the message after them is read. -/
theorem readLv_written_refused : ∃ results,
    [[], [0, 0, 0]].mapM (fun out => readLv out 2) (written [[1, 2, 3], [4]]) =
        some (results, []) ∧
      List.Forall₂ (Answers 2) [[1, 2, 3], [4]] results :=
  readLv_written (by decide) 2 (by decide)

end Ipc

end Madbfs
