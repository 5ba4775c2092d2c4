import PagedStorage.Proofs.Replacement.Calls
import PagedStorage.Proofs.Replacement.Recency
import PagedStorage.Replacement.Lru

/-!
# A bounded queue of frames

A policy that gives up the frame which has been out of use longest is a queue: a frame comes in at
the end when it goes out of use, and the frame to be given up is the one in front. Two things set it
apart from a plain queue. A frame leaves from the middle when it comes into use again, and a frame
that is in the queue already, or comes when the queue is full, does not come in at all.

## The cache behind it

`LruReplacer` keeps the same order in a cache, whose own rules are others: there a key that is
inserted again moves to the front, and a full cache drops its last key. Neither ever happens, as a
frame is only inserted when it is absent and there is room (`LruReplacer.Follows.unpin`). What is
left of the cache is its list of keys, and the queue is this list read from its end.

Each call is shown to keep this relation up, and then nobody who sees only the answers can tell the
two apart (`Replacer.Simulates`). No bound on the frames is needed: one that comes when there is no
room is refused by both.
-/

namespace PagedStorage

structure FrameQueue where
  capacity : Nat
  /-- The frames, the one that came first in front. -/
  frames : List Nat := []

namespace FrameQueue

/-- Gives up the frame that came first. -/
def evict (q : FrameQueue) : Option Nat × FrameQueue :=
  (q.frames.head?, { q with frames := q.frames.tail })

/-- Takes a frame out, wherever it stands. -/
def pin (q : FrameQueue) (frame : Nat) : FrameQueue :=
  { q with frames := q.frames.filter (· != frame) }

/-- Takes a frame in, if it is absent and there is room. -/
def unpin (q : FrameQueue) (frame : Nat) : FrameQueue :=
  if frame ∉ q.frames ∧ q.frames.length < q.capacity then { q with frames := q.frames ++ [frame] }
  else q

def size (q : FrameQueue) : Nat := q.frames.length

instance : Replacer FrameQueue := ⟨evict, pin, unpin, size⟩

end FrameQueue

namespace LruReplacer

variable {r : LruReplacer} {q : FrameQueue}

/-- The keys of the cache, from the one used longest ago on, are the frames of the queue. -/
def Follows (r : LruReplacer) (q : FrameQueue) : Prop :=
  ∃ l : RecencyList Nat Unit, r.frames.Mirrors q.capacity l ∧ q.frames = l.keys.reverse

private theorem follows_ofCapacity (capacity : Nat) : (ofCapacity capacity).Follows { capacity } :=
  ⟨_, (LruCache.holds_empty capacity).mirrors, rfl⟩

namespace Follows

theorem size_eq (h : r.Follows q) : r.size = q.size := by
  obtain ⟨l, hl, hframes⟩ := h
  rw [LruReplacer.size, hl.views.2.1, FrameQueue.size, hframes, List.length_reverse,
    RecencyList.keys, List.length_map]

theorem evict (h : r.Follows q) : r.evict.1 = q.evict.1 ∧ r.evict.2.Follows q.evict.2 := by
  obtain ⟨l, hl, hframes⟩ := h
  obtain ⟨hdropped, hnext⟩ := hl.evict
  constructor
  · have hfirst : r.evict.1 = r.frames.evict.1.map (·.1) := rfl
    rw [hfirst, hdropped, RecencyList.evict, FrameQueue.evict, hframes, List.head?_reverse,
      RecencyList.keys, List.getLast?_map]
  · refine ⟨_, hnext, ?_⟩
    rw [FrameQueue.evict, hframes, List.tail_reverse, RecencyList.evict, RecencyList.keys,
      RecencyList.keys, List.map_dropLast]

theorem pin (h : r.Follows q) (frame : Nat) : (r.pin frame).Follows (q.pin frame) := by
  obtain ⟨l, hl, hframes⟩ := h
  refine ⟨_, (hl.remove frame).2, ?_⟩
  rw [FrameQueue.pin, hframes, List.filter_reverse, RecencyList.remove, RecencyList.keys,
    RecencyList.keys, RecencyList.others, List.filter_map]
  rfl

/-- A frame is taken in by both or by none. Then the cache has room and the key is new to it, so
it neither drops nor moves another key. -/
theorem unpin (h : r.Follows q) (frame : Nat) : (r.unpin frame).Follows (q.unpin frame) := by
  obtain ⟨l, hl, hframes⟩ := h
  have hpairs : l.pairs.length = q.frames.length := by
    rw [hframes, List.length_reverse, RecencyList.keys, List.length_map]
  have hcontains : l.contains frame = decide (frame ∈ q.frames) := by
    simp [RecencyList.contains, hframes]
  have hcapacity : l.capacity = q.capacity ∧ r.frames.capacity = q.capacity := by
    obtain ⟨nodes, hc, rfl⟩ := hl
    exact ⟨rfl, hc.capacity_eq⟩
  rw [LruReplacer.unpin, FrameQueue.unpin, hl.contains_eq, hl.views.2.1, hcontains, hpairs,
    hcapacity.2]
  by_cases htaken : frame ∉ q.frames ∧ q.frames.length < q.capacity
  · obtain ⟨hnew, hroom⟩ := htaken
    rw [if_pos (by simp [hnew, hroom]), if_pos ⟨hnew, hroom⟩]
    refine ⟨_, (hl.insert frame ()).2, ?_⟩
    rw [RecencyList.insert, hcontains, hcapacity.1, hpairs, if_neg (by simpa using hnew),
      if_neg (by omega), if_neg (by omega)]
    simp [RecencyList.keys, hframes]
  · rw [if_neg (by simpa using htaken), if_neg htaken]
    exact ⟨l, hl, hframes⟩

end Follows

private theorem simulates_queue : Replacer.Simulates Follows where
  size_eq := Follows.size_eq
  call k h := by
    cases k with
    | evict => exact h.evict
    | pin frame => exact ⟨rfl, h.pin frame⟩
    | unpin frame => exact ⟨rfl, h.unpin frame⟩

/-- A policy made for any number of frames gives up the same frames as the queue, and has as many on
offer, whatever it is called with. It has none to give up exactly when the queue is empty. -/
theorem answers_eq_queue (capacity : Nat) (ks : List ReplacerCall) :
    let r := ofCapacity capacity
    let q : FrameQueue := { capacity }
    Replacer.answers r ks = Replacer.answers q ks ∧
      ((Replacer.after r ks).evict.1 = none ↔ (Replacer.after q ks).frames = []) := by
  intro r q
  have hstart : r.Follows q := follows_ofCapacity capacity
  have hlast := simulates_queue.after hstart ks
  refine ⟨simulates_queue.answers_eq hstart ks, ?_⟩
  rw [hlast.evict.1, FrameQueue.evict, List.head?_eq_none_iff]

end LruReplacer

end PagedStorage
