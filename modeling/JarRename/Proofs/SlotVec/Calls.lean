import Mathlib
import JarRename.Proofs.ConstantPool

/-!
# Elements are found where they were added

Calls add elements to a vector or replace them, or fail to, and `Event`s say what each call
answered. After any calls an element stands at the address that its addition returned, its index is
the number of additions before it, and it has the value that was stored there last. All of this is
one invariant, `Records`, between the events and the vector that they leave.
-/
namespace JarRename.SlotVec

variable {α : Type} [HasWidth α]

/-- What can be done to a vector. -/
inductive Call (α : Type) where
  | push (x : α)
  | set (offset : Nat) (x : α)

/-- A call with what it returned. -/
inductive Event (α : Type) where
  | pushed (address : Nat) (x : α)
  | set (offset : Nat) (x : α) (answer : Except SlotError Nat)

def Call.run : Call α → SlotVec α → Event α × SlotVec α
  | .push x, v => (.pushed v.next x, v.push x)
  | .set offset x, v => (.set offset x (v.set offset x).1, (v.set offset x).2)

/-- What happens when calls are made one after the other, and the vector that they leave. One that
fails does not stop the others. -/
def Call.runAll : List (Call α) → SlotVec α → List (Event α) × SlotVec α
  | [], v => ([], v)
  | call :: rest, v =>
    let (event, next) := call.run v
    let (events, last) := runAll rest next
    (event :: events, last)

/-- The elements that calls add. -/
def Call.added : List (Call α) → List α
  | [] => []
  | .push x :: rest => x :: added rest
  | .set _ _ :: rest => added rest

/-- What an event stores at the address. -/
def Event.stored? (address : Nat) : Event α → Option α
  | .pushed place x | .set place x (.ok _) => if place = address then some x else none
  | .set _ _ (.error _) => none

/-- What was stored last at the address. -/
def lastStored? (address : Nat) (events : List (Event α)) : Option α :=
  events.reverse.findSome? (Event.stored? address)

/-- The elements that were added, with the addresses that were returned for them. -/
def additions (events : List (Event α)) : List (Nat × α) :=
  events.filterMap fun
    | .pushed address x => some (address, x)
    | .set _ _ _ => none

omit [HasWidth α] in
theorem lastStored?_concat (address : Nat) (events : List (Event α)) (event : Event α) :
    lastStored? address (events ++ [event]) =
      (event.stored? address).or (lastStored? address events) := by
  rw [lastStored?, List.reverse_concat, List.findSome?_cons]
  cases event.stored? address <;> rfl

omit [HasWidth α] in
theorem additions_concat_pushed (events : List (Event α)) (address : Nat) (x : α) :
    additions (events ++ [.pushed address x]) = additions events ++ [(address, x)] := by
  simp [additions]

omit [HasWidth α] in
theorem additions_concat_set (events : List (Event α)) (offset : Nat) (x : α)
    (answer : Except SlotError Nat) :
    additions (events ++ [.set offset x answer]) = additions events := by
  simp [additions]

/-- Which slots an element takes up: its address and its width. -/
def extent (entry : Nat × α) : Nat × Nat := (entry.1, width entry.2)

theorem map_extent_eq_some_iff {found : Option (Nat × α)} {address n : Nat} :
    found.map extent = some (address, n) ↔ ∃ x, found = some (address, x) ∧ n = width x := by
  rw [Option.map_eq_some_iff]
  constructor
  · rintro ⟨⟨place, x⟩, rfl, he⟩
    cases he
    exact ⟨x, rfl, rfl⟩
  · rintro ⟨x, rfl, rfl⟩
    exact ⟨(address, x), rfl, rfl⟩

/-- The vector holds what was added in its order, each element in the slots that were returned for
it and with the value that was stored last. -/
structure Records (start : Nat) (events : List (Event α)) (v : SlotVec α) : Prop where
  laid : v.LaidFrom start
  added : v.toList.map extent = (additions events).map extent
  last : ∀ entry ∈ v.toList, lastStored? entry.1 events = some entry.2

namespace Records

variable {start : Nat} {events : List (Event α)} {v w : SlotVec α} {offset : Nat} {x : α}

theorem empty : Records start [] (emptyAt start : SlotVec α) :=
  ⟨laidFrom_emptyAt start, rfl, fun _ h => nomatch h⟩

theorem push (h : Records start events v) (wide : 0 < width x)
    (room : v.next + width x < addressCount) :
    Records start (events ++ [.pushed v.next x]) (v.push x) := by
  refine ⟨h.laid.push wide room, ?_, fun entry hm => ?_⟩
  · rw [additions_concat_pushed, toList_push, List.map_append, List.map_append, h.added]
  · rw [lastStored?_concat]
    rw [toList_push, List.mem_append, List.mem_singleton] at hm
    rcases hm with hm | rfl
    · have hne : v.next ≠ entry.1 := (Laid.address_lt h.laid hm).ne'
      rw [Event.stored?, if_neg hne, Option.none_or]
      exact h.last entry hm
    · rw [Event.stored?, if_pos rfl, Option.some_or]

theorem replace {i : Nat} (h : Records start events v) (hr : v.set offset x = (.ok i, w)) :
    Records start (events ++ [.set offset x (.ok i)]) w := by
  obtain ⟨⟨old, hold, hwidth⟩, -, hlist⟩ := set_ok h.laid hr
  refine ⟨h.laid.set hr, ?_, ?_⟩
  · rw [additions_concat_set, ← h.added, hlist, List.map_map]
    refine List.map_congr_left fun entry hm => ?_
    by_cases ha : entry.1 = offset
    · have hvalue : entry.2 = old :=
        h.laid.eq_of_address (show (offset, _) ∈ _ from ha ▸ hm) hold
      simp [extent, replaced, ha, hvalue, hwidth]
    · simp [extent, replaced, ha]
  · rw [hlist]
    intro entry hm
    obtain ⟨before, hb, rfl⟩ := List.mem_map.1 hm
    rw [lastStored?_concat, Event.stored?, replaced_fst]
    by_cases ha : before.1 = offset
    · rw [if_pos ha.symm, Option.some_or, replaced, if_pos ha]
    · rw [if_neg (Ne.symm ha), Option.none_or, replaced, if_neg ha]
      exact h.last before hb

theorem refuse {e : SlotError} (h : Records start events v)
    (hr : v.set offset x = (.error e, w)) :
    Records start (events ++ [.set offset x (.error e)]) w := by
  obtain rfl := set_error hr
  refine ⟨h.laid, by rw [additions_concat_set]; exact h.added, fun entry hm => ?_⟩
  rw [lastStored?_concat, Event.stored?, Option.none_or]
  exact h.last entry hm

/-- Calls keep the vector in step with the events. -/
theorem runAll {calls : List (Call α)} (h : Records start events v)
    (wide : ∀ x ∈ Call.added calls, 0 < width x) (room : Room v.next (Call.added calls)) :
    Records start (events ++ (Call.runAll calls v).1) (Call.runAll calls v).2 := by
  -- The room shrinks with every addition, and a replacement leaves the end where it is.
  induction calls generalizing events v with
  | nil => simpa [Call.runAll] using h
  | cons call calls ih =>
    cases call with
    | push x =>
      obtain ⟨hx, hxs⟩ := room.of_cons
      have hnext := h.push (wide x (by simp [Call.added])) hx
      have hrest := ih hnext (fun y hy => wide y (by simp [Call.added, hy])) (next_push hx ▸ hxs)
      rwa [List.append_assoc] at hrest
    | set offset x =>
      rcases hr : v.set offset x with ⟨answer, w⟩
      have hnext : Records start (events ++ [.set offset x answer]) w := by
        cases answer with
        | error e => exact h.refuse hr
        | ok i => exact h.replace hr
      have hrest := ih hnext wide (next_set hr ▸ room)
      rw [List.append_assoc] at hrest
      simpa [Call.runAll, Call.run, hr] using hrest

/-- The elements take up the slots in which they were added. -/
theorem getElem?_iff (h : Records start events v) {i address n : Nat} :
    (∃ x, v.toList[i]? = some (address, x) ∧ n = width x) ↔
      ∃ y, (additions events)[i]? = some (address, y) ∧ n = width y := by
  rw [← map_extent_eq_some_iff, ← map_extent_eq_some_iff, ← List.getElem?_map,
    ← List.getElem?_map, h.added]

/-- What was added is found at its address, with the value that was stored last. -/
theorem get_of_addition (h : Records start events v) {i address : Nat}
    (ha : (additions events)[i]? = some (address, x)) :
    ∃ y, lastStored? address events = some y ∧ v.get address = .ok (i, y) := by
  obtain ⟨y, hy, -⟩ := h.getElem?_iff.2 ⟨x, ha, rfl⟩
  exact ⟨y, h.last _ (List.mem_of_getElem? hy), (get_ok_iff_toList h.laid).2 hy⟩

end Records

/-- Whatever is pushed and replaced, as long as the addresses do not wrap around: the addresses
ascend, and each is the start and the widths before it; an addition is found at the address that was
returned for it, with the value that was stored last; and a replacement succeeds exactly there and
with the same width, changes one element then, and none otherwise. -/
theorem found_where_added (start : Nat) (calls : List (Call α))
    (wide : ∀ x ∈ Call.added calls, 0 < width x)
    (room : start + ((Call.added calls).map width).sum < addressCount) :
    let events := (Call.runAll calls (emptyAt start)).1
    let v := (Call.runAll calls (emptyAt start)).2
    v.toList.Pairwise (fun a b => a.1 < b.1) ∧
    (∀ before entry after, v.toList = before ++ entry :: after →
      entry.1 = start + (before.map fun entry => width entry.2).sum) ∧
    v.next = start + (v.toList.map fun entry => width entry.2).sum ∧
    (∀ i address x, (additions events)[i]? = some (address, x) →
      ∃ y, lastStored? address events = some y ∧ v.get address = .ok (i, y)) ∧
    (∀ offset x i, (v.set offset x).1 = .ok i ↔
      ∃ y, (additions events)[i]? = some (offset, y) ∧ width x = width y) ∧
    ∀ offset x w,
      (∀ i, v.set offset x = (.ok i, w) →
        w.next = v.next ∧ w.toList = v.toList.set i (offset, x)) ∧
      ∀ e, v.set offset x = (.error e, w) → w = v := by
  intro events v
  have h : Records start events v := Records.empty.runAll wide fun _ => room
  refine ⟨Laid.ascending h.laid, fun _ _ _ => Laid.address_eq h.laid, Laid.next_eq h.laid,
    fun _ _ _ => h.get_of_addition, fun offset x i => ?_, fun offset x w => ⟨fun i hs => ?_, ?_⟩⟩
  · exact (set_ok_iff h.laid).trans h.getElem?_iff
  · exact ⟨next_set hs, toList_set h.laid hs⟩
  · exact fun e => set_error

/-- Calls of which two fail, as no element begins at the third slot and the one at the second is
wider. -/
def sampleCalls : List (Call Constant) :=
  [.push (.integer 1), .push (.long 2), .set 3 (.integer 3), .set 2 (.integer 4),
    .set 2 (.double 5), .push (.integer 6)]

theorem found_where_added_sample :
    (∀ x ∈ Call.added sampleCalls, 0 < width x) ∧
      1 + ((Call.added sampleCalls).map width).sum < addressCount ∧
      (Call.runAll sampleCalls (emptyAt 1)).2.next = 5 ∧
      (Call.runAll sampleCalls (emptyAt 1)).2.get 2 = .ok (1, .double 5) ∧
      ((Call.runAll sampleCalls (emptyAt 1)).2.set 4 (.integer 7)).1 = .ok 2 := by
  have wide : ∀ x ∈ Call.added sampleCalls, 0 < width x := fun x _ => x.width_pos
  have room : 1 + ((Call.added sampleCalls).map width).sum < addressCount := by decide
  obtain ⟨-, -, hnext, hget, hset, -⟩ := found_where_added 1 sampleCalls wide room
  have hadded : additions (Call.runAll sampleCalls (emptyAt 1)).1 =
      [(1, .integer 1), (2, .long 2), (4, .integer 6)] := by decide +kernel
  have hlast : lastStored? 2 (Call.runAll sampleCalls (emptyAt 1)).1 = some (.double 5) := by
    decide +kernel
  refine ⟨wide, room, hnext.trans (by decide +kernel), ?_, ?_⟩
  · obtain ⟨y, hy, hfound⟩ := hget 1 2 (.long 2) (by rw [hadded]; rfl)
    obtain rfl : Constant.double 5 = y := Option.some.inj (hlast.symm.trans hy)
    exact hfound
  · exact (hset 4 (.integer 7) 2).2 ⟨.integer 6, by rw [hadded]; rfl, rfl⟩

/-- Behind the last address the next element gets the first one. -/
theorem addresses_wrap :
    let calls : List (Call Constant) := [.push (.integer 1), .push (.integer 2)]
    let v := (Call.runAll calls (emptyAt 0xFFFFFFFFFFFFFFFF)).2
    ¬v.toList.Pairwise (fun a b => a.1 < b.1) ∧
      v.next ≠ 0xFFFFFFFFFFFFFFFF + (v.toList.map fun entry => width entry.2).sum := by
  decide

end JarRename.SlotVec
