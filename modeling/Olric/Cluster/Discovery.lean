import Mathlib.Algebra.Order.BigOperators.Group.List
import Mathlib.Algebra.Order.Group.Nat
import Olric.Basic

namespace Olric

inductive EventType
  | join
  | leave
  | update
deriving DecidableEq

/-- A node of the memberlist, as far as it is read. -/
structure MemberNode where
  name : Bytes
  metadata : Bytes
deriving DecidableEq

structure NodeEvent where
  event : EventType
  node : MemberNode
deriving DecidableEq

/-- The name of the member, and what each subscriber's channel has been sent, in the order of the
subscriptions. -/
structure Discovery where
  name : Bytes
  eventSubscribers : List (List NodeEvent)
deriving DecidableEq

namespace Discovery

def subscribeNodeEvents (d : Discovery) : Discovery := { d with eventSubscribers := d.eventSubscribers ++ [[]] }

/-- One round of the loop over the subscribers, with the event as the next round finds it. -/
def send (name : Bytes) (event : NodeEvent) (ch : List NodeEvent) : NodeEvent × List NodeEvent :=
  if event.node.name = name then (event, ch)
  else if event.event ≠ .update then (event, ch ++ [event])
  else
    let event := { event with event := .leave }
    let cpy := { event with event := .join }
    (event, ch ++ [event] ++ [cpy])

def sendAll (name : Bytes) : NodeEvent → List (List NodeEvent) → List (List NodeEvent)
  | _, [] => []
  | event, ch :: subscribers =>
    let sent := send name event ch
    sent.2 :: sendAll name sent.1 subscribers

def handleEvent (d : Discovery) (event : NodeEvent) : Discovery :=
  { d with eventSubscribers := sendAll d.name event d.eventSubscribers }

def eventLoop (d : Discovery) (events : List NodeEvent) : Discovery := events.foldl handleEvent d

/-- What a subscriber is meant to get of an event. -/
def meant (name : Bytes) (event : NodeEvent) : List NodeEvent :=
  if event.node.name = name then []
  else if event.event = .update then [{ event with event := .leave }, { event with event := .join }]
  else [event]

/-- The event that the loop goes on with. -/
def overwritten (name : Bytes) (event : NodeEvent) : NodeEvent :=
  if event.node.name ≠ name ∧ event.event = .update then { event with event := .leave } else event

/-- The update of another node. -/
def Updates (name : Bytes) (event : NodeEvent) : Prop := event.node.name ≠ name ∧ event.event = .update

variable {name : Bytes} {event : NodeEvent}

theorem send_eq (name : Bytes) (event : NodeEvent) (ch : List NodeEvent) :
    send name event ch = (overwritten name event, ch ++ meant name event) := by
  unfold send overwritten meant
  by_cases own : event.node.name = name
  · simp [own]
  · by_cases update : event.event = .update <;> simp [own, update]

theorem overwritten_of_not_updates (other : ¬ Updates name event) : overwritten name event = event := if_neg other

theorem not_updates_overwritten (name : Bytes) (event : NodeEvent) : ¬ Updates name (overwritten name event) := by
  unfold overwritten
  split
  · exact fun updates => absurd updates.2 (by simp)
  · assumption

/-- Of an event that is not overwritten, every subscriber gets the same. -/
theorem sendAll_of_not_updates (other : ¬ Updates name event) (subscribers : List (List NodeEvent)) :
    sendAll name event subscribers = subscribers.map (· ++ meant name event) := by
  induction subscribers with
  | nil => rfl
  | cons ch subscribers ih => rw [sendAll, send_eq, overwritten_of_not_updates other, ih, List.map_cons]

/-- Only the first subscriber gets what is meant. -/
theorem sendAll_cons (name : Bytes) (event : NodeEvent) (ch : List NodeEvent) (subscribers : List (List NodeEvent)) :
    sendAll name event (ch :: subscribers) =
      (ch ++ meant name event) :: subscribers.map (· ++ meant name (overwritten name event)) := by
  rw [sendAll, send_eq, sendAll_of_not_updates (not_updates_overwritten name event)]

theorem eventLoop_cons (d : Discovery) (event : NodeEvent) (events : List NodeEvent) :
    d.eventLoop (event :: events) = (d.handleEvent event).eventLoop events := rfl

/-- What the subscribers have got of all events. -/
theorem eventLoop_subscribers (d : Discovery) {ch : List NodeEvent} {subscribers : List (List NodeEvent)}
    (these : d.eventSubscribers = ch :: subscribers) (events : List NodeEvent) :
    (d.eventLoop events).eventSubscribers = (ch ++ events.flatMap (meant d.name)) ::
      subscribers.map (· ++ events.flatMap fun event => meant d.name (overwritten d.name event)) := by
  induction events generalizing d ch subscribers with
  | nil => simp [eventLoop, these]
  | cons event events ih =>
    have next : (d.handleEvent event).eventSubscribers = _ :=
      (congrArg (sendAll d.name event) these).trans (sendAll_cons ..)
    rw [eventLoop_cons, ih _ next]
    simp [handleEvent, List.flatMap_cons, Function.comp_def]

theorem length_meant_overwritten (name : Bytes) (event : NodeEvent) :
    (meant name (overwritten name event)).length ≤ (meant name event).length ∧
      (Updates name event → (meant name (overwritten name event)).length < (meant name event).length) := by
  by_cases updates : Updates name event
  · have shorter : (meant name (overwritten name event)).length < (meant name event).length := by
      simp [meant, overwritten, updates.1, updates.2]
    exact ⟨shorter.le, fun _ => shorter⟩
  · rw [overwritten_of_not_updates updates]
    exact ⟨le_rfl, fun wrong => absurd wrong updates⟩

/-- Whoever comes later misses the joins of the updated nodes. -/
theorem flatMap_overwritten (name : Bytes) (events : List NodeEvent) :
    (events.flatMap fun event => meant name (overwritten name event)) = events.flatMap (meant name) ↔
      ∀ event ∈ events, ¬ Updates name event := by
  constructor
  · intro same event mem updates
    have less : (events.map fun event => (meant name (overwritten name event)).length).sum <
        (events.map fun event => (meant name event).length).sum :=
      List.sum_lt_sum _ _ (fun event _ => (length_meant_overwritten name event).1)
        ⟨event, mem, (length_meant_overwritten name event).2 updates⟩
    have lengths := congrArg List.length same
    rw [List.length_flatMap, List.length_flatMap] at lengths
    omega
  · intro none
    induction events with
    | nil => rfl
    | cons event events ih =>
      rw [List.flatMap_cons, List.flatMap_cons, overwritten_of_not_updates (none event List.mem_cons_self),
        ih fun event mem => none event (List.mem_cons_of_mem _ mem)]

end Discovery

/-- All subscribers get the same, with a leave and a join for each update, exactly if there is only one
of them or no other node has been updated. -/
theorem subscribers_get_same_iff (d : Discovery) (events : List NodeEvent) :
    (d.eventLoop events).eventSubscribers = d.eventSubscribers.map (· ++ events.flatMap (Discovery.meant d.name)) ↔
      d.eventSubscribers.length ≤ 1 ∨ ∀ event ∈ events, ¬ Discovery.Updates d.name event := by
  cases these : d.eventSubscribers with
  | nil =>
    have none : (d.eventLoop events).eventSubscribers = [] := by
      induction events generalizing d with
      | nil => exact these
      | cons event events ih => exact ih (d.handleEvent event) (congrArg (Discovery.sendAll d.name event) these)
    simp [none]
  | cons ch subscribers =>
    rw [d.eventLoop_subscribers these, List.map_cons, List.cons.injEq, and_iff_right rfl,
      ← Discovery.flatMap_overwritten]
    cases subscribers with
    | nil => simp
    | cons next subscribers =>
      have many : ¬ (ch :: next :: subscribers).length ≤ 1 := by simp
      rw [or_iff_right many, List.map_inj_left]
      exact ⟨fun all => List.append_cancel_left (all next List.mem_cons_self), fun same _ _ => by rw [same]⟩

/-- Of an update, the second subscriber gets a leave only. -/
theorem second_misses_join :
    ((Discovery.mk [97] [[], []]).eventLoop [⟨.update, ⟨[98], []⟩⟩]).eventSubscribers =
      [[⟨.leave, ⟨[98], []⟩⟩, ⟨.join, ⟨[98], []⟩⟩], [⟨.leave, ⟨[98], []⟩⟩]] := by
  decide

end Olric
