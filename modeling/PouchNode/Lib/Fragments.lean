import PouchNode.Lib.Machine

/-! Messages that travel in fragments. A fragment says whether it is the first and whether it
is the last of its message; the receiver starts over with each first one. -/
namespace Fragments
open Machine
variable {α : Type*}

structure Fragment (α : Type*) where
  payload : List α
  first : Bool
  last : Bool
  deriving DecidableEq

/- The receiver has a front part of a message, or nothing to put a fragment behind; with the
   last fragment it has a whole message. -/
def receive (r : Option (List α)) (f : Fragment α) : Option (List α) × Option (List α) :=
  let got := if f.first then some f.payload else r.map (·++f.payload)
  if f.last then (none, got) else (got, none)

def fragments : Bool → List (List α) → List (Fragment α)
  | _, [] => []
  | first, [p] => [⟨p, first, true⟩]
  | first, p :: q :: ps => ⟨p, first, false⟩ :: fragments false (q :: ps)

theorem fragments_eq_mapIdx (first : Bool) (ps : List (List α)) :
    fragments first ps =
      ps.mapIdx fun i p => ⟨p, first && decide (i = 0), decide (i + 1 = ps.length)⟩ := by
  induction ps generalizing first with
  | nil => rfl
  | cons p ps ih =>
    cases ps with
    | nil => simp [fragments]
    | cons q ps => simp [fragments, ih, List.mapIdx_cons]

theorem fragments_cons (first : Bool) (p : List α) (ps : List (List α)) :
    fragments first (p :: ps) = ⟨p, first, ps.isEmpty⟩ :: fragments false ps := by
  cases ps with
  | nil => rfl
  | cons q ps => rfl

structure Sender (α : Type*) where
  rest : List α
  begun : Bool

def Sender.fragment (s : Sender α) (n : ℕ) : Fragment α :=
  ⟨s.rest.take n, !s.begun, decide (s.rest.length ≤ n)⟩

def Sender.next (s : Sender α) (n : ℕ) : Option (Sender α) :=
  if s.rest.length ≤ n then none else some ⟨s.rest.drop n, true⟩

def Sends (message : List α) (s : Sender α) (r : Option (List α)) : Prop :=
  if s.begun then ∃ front, r = some front ∧ front++s.rest = message else s.rest = message

variable {message : List α} {s : Sender α} {r : Option (List α)}

/-- A fragment keeps sender and receiver together; the last one brings the message. -/
theorem Sends.step (h : Sends message s r) (n : ℕ) :
    (receive r (s.fragment n)).2 = (if s.rest.length ≤ n then some message else none) ∧
    ∀ t, s.next n = some t → Sends message t (receive r (s.fragment n)).1 := by
  have hgot : ∃ front, (if !s.begun then some (s.rest.take n) else r.map (·++s.rest.take n)) =
      some (front++s.rest.take n) ∧ front++s.rest = message := by
    cases hb : s.begun with
    | false => exact ⟨[], by simp, by simpa [Sends, hb] using h⟩
    | true =>
      obtain ⟨front, hr, hm⟩ := (if_pos hb).mp h
      exact ⟨front, by simp [hr], hm⟩
  obtain ⟨front, hgot, hm⟩ := hgot
  by_cases hlast : s.rest.length ≤ n
  · simp only [Sender.fragment, Sender.next, receive, hgot, hlast, decide_true, if_true]
    refine ⟨?_, fun t ht => by cases ht⟩
    rw [List.take_of_length_le hlast, hm]
  · simp only [Sender.fragment, Sender.next, receive, hgot, hlast, decide_false, if_false,
      Bool.false_eq_true]
    refine ⟨trivial, fun t ht => ?_⟩
    cases ht
    refine ⟨front++s.rest.take n, rfl, ?_⟩
    rw [List.append_assoc, List.take_append_drop, hm]

end Fragments
