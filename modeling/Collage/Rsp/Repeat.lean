import Collage.Rsp.Datagram

/-!
# Repeat requests

The writer's queue of sequence ranges to send again, and the ranges a reader asks for when a
writer requests an acknowledgement it cannot give yet.
-/

namespace Collage.Rsp

/-- Widen the first queued range that the nack overlaps without being covered by it; `none` when
there is no such range. The number counts the packets newly asked for. -/
def mergeNack (nack : Nack) : List Nack → Option (List Nack × ℕ)
  | [] => none
  | old :: rest =>
      if (old.start ≤ nack.stop ∧ nack.start ≤ old.stop) ∧
          (nack.start < old.start ∨ old.stop < nack.stop) then
        let below := if nack.start < old.start then old.start.toNat - nack.start.toNat else 0
        let above := if old.stop < nack.stop then nack.stop.toNat - old.stop.toNat else 0
        some (⟨if nack.start < old.start then nack.start else old.start,
          if old.stop < nack.stop then nack.stop else old.stop⟩ :: rest, below + above)
      else (mergeNack nack rest).map (fun r => (old :: r.1, r.2))

/-- `_addRepeat`: the new queue and the number of packets reported lost, by which the send rate
is reduced. -/
def addRepeat : List Nack → List Nack → List Nack × ℕ
  | queue, [] => (queue, 0)
  | queue, nack :: nacks =>
      let added := match mergeNack nack queue with
        | some r => r
        | none => (queue ++ [nack], (nack.stop - nack.start).toNat + 1)
      let rest := addRepeat added.1 nacks
      (rest.1, added.2 + rest.2)

/-- The number of single packets the requests stand for: what `_repeatData` can at most look at
before the queue is empty. -/
def repeatWork (queue : List Nack) : ℕ :=
  (queue.map (fun n => (n.stop - n.start).toNat + 1)).sum

/-- The loop of `_repeatData`: answer the front request number by number until one packet was sent
again. Numbers no longer in the write queue have been acknowledged by everybody. -/
def repeatLoop (sequence : U16) (writeBuffers : List Buffer) :
    ℕ → List Nack → List Nack × Option DatagramData
  | 0, queue => (queue, none)
  | _ + 1, [] => ([], none)
  | fuel + 1, request :: queue =>
      let distance := (sequence - request.start).toNat
      if distance = 0 then repeatLoop sequence writeBuffers fuel queue
      else
        let queue' := if request.start = request.stop then queue
          else ⟨request.start + 1, request.stop⟩ :: queue
        if distance ≤ writeBuffers.length then
          (queue', (writeBuffers[writeBuffers.length - distance]?).map Buffer.data)
        else repeatLoop sequence writeBuffers fuel queue'

/-- `CO_RSP_MAX_NACKS - 2`, the number of ranges the search for holes may fill. -/
def maxHoleNacks : ℕ := 298

/-- Close the range `start..stop`, split where it passes the highest number. -/
def closeNack (start stop : U16) : List Nack :=
  if stop < start then [⟨start, BitVec.allOnes 16⟩, ⟨0, stop⟩] else [⟨start, stop⟩]

/-- The search for holes of `_handleAckRequest`: `inRun` while it skips received packets. Returns
the closed ranges, the start of the range under construction and whether the reorder queue was
read to its end. -/
def nackHoles (expected : U16) :
    ℕ → List (Option Buffer) → Bool → List Nack → U16 → List Nack × U16 × Bool
  | _, [], _, acc, start => (acc, start, true)
  | i, some _ :: rest, true, acc, start => nackHoles expected (i + 1) rest true acc start
  | i, none :: rest, true, acc, _ =>
      nackHoles expected (i + 1) rest false acc (expected + BitVec.ofNat 16 i + 1)
  | i, b :: rest, false, acc, start =>
      if maxHoleNacks ≤ acc.length then (acc, start, false)
      else if b.isSome then
        nackHoles expected (i + 1) rest true
          (acc ++ closeNack start (expected + BitVec.ofNat 16 i)) start
      else nackHoles expected (i + 1) rest false acc start

/-- The nacks `_handleAckRequest` sends for a reader that expects `expected` and was asked for
everything up to `reqID`. -/
def ackRequestNacks (numBuffers : ℕ) (expected reqID : U16) (queue : List (Option Buffer)) :
    List Nack :=
  match nackHoles expected 0 queue false [] expected with
  | (acc, start, atEnd) =>
      if atEnd = false ∨ acc = [] then acc ++ closeNack start reqID
      else match acc.getLast? with
        | none => acc
        | some last =>
            if (reqID - last.stop).toNat < numBuffers then
              acc ++ closeNack (last.stop + 1) reqID
            else acc

end Collage.Rsp
