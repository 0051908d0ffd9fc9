/-
  Notice - what the replay tells the host.

  Notices wait in a queue until the host takes them.  A host that takes none
  loses the oldest ones.
-/
namespace PaulaReplay

/-- Something the host may want to know. -/
inductive Notice where
  /-- The ticks of a row, less one. -/
  | speed (ticks : UInt16)
  /-- The tempo in beats per minute. -/
  | tempo (beats : UInt32)
  /-- The position in the sub-song. -/
  | position (p : UInt16)
  /-- The song has come to its end. -/
  | ended
deriving DecidableEq, Repr

/-- The greatest number of notices that wait. -/
def noticeLimit : Nat := 64

/-- The queue with one more notice; the oldest one makes room. -/
def enqueue (queue : List Notice) (n : Notice) : List Notice :=
  (if noticeLimit ≤ queue.length then queue.tail else queue) ++ [n]

theorem length_enqueue_le {queue : List Notice} (n : Notice) (h : queue.length ≤ noticeLimit) :
    (enqueue queue n).length ≤ noticeLimit := by
  unfold enqueue noticeLimit at *
  split <;> simp <;> omega

end PaulaReplay
