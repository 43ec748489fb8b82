import Dawgs.Lib.Machine

/-!
# The buffered pipe

`BufferedPipe` of channels/pipe.go without a context that ends. Both channels
are unbuffered, so a send and its receive are one event, and the goroutine's
selects say which events are possible. What the reader has and what the buffer
holds is, in this order, what was written.
-/

namespace Dawgs.Ref.Channels

open Lib List

variable {T : Type}

structure Pipe (T : Type) where
  /-- The writer has not closed its channel. -/
  isOpen : Bool := true
  doneReading : Bool := false
  buffer : List T := []
  received : List T := []

/-- The buffer is flushed and the reader's channel is closed. -/
def Pipe.Finished (s : Pipe T) : Prop := s.doneReading = true ∧ s.buffer = []

inductive Event (T : Type) where
  | write (value : T)
  | close
  /-- The goroutine finds the writer's channel closed. -/
  | notice
  | receive

/-- One event. A value is received in both loops, from the buffer's front. -/
def step (s : Pipe T) : Event T → Option (Pipe T)
  | .write value =>
    if s.isOpen ∧ s.doneReading = false then some { s with buffer := s.buffer ++ [value] } else none
  | .close => if s.isOpen then some { s with isOpen := false } else none
  | .notice =>
    if s.isOpen = false ∧ s.doneReading = false then some { s with doneReading := true } else none
  | .receive =>
    match s.buffer with
    | [] => none
    | next :: buffer => some { s with buffer := buffer, received := s.received ++ [next] }

def written (es : List (Event T)) : List T :=
  es.filterMap fun
    | .write value => some value
    | _ => none

/-- The goroutine takes what comes from the writer, a value or the close. -/
def Pipe.Accepts (s : Pipe T) : Prop :=
  if s.isOpen then ∀ value, step s (.write value) ≠ none else step s .notice ≠ none

/-- The goroutine hands the reader the first of `values` that it does not have. -/
def Pipe.Delivers (s : Pipe T) (values : List T) : Prop :=
  ∃ next s', values[s.received.length]? = some next ∧ step s .receive = some s' ∧
    s'.received = s.received ++ [next]

structure Inv (es : List (Event T)) (s : Pipe T) : Prop where
  inOrder : s.received ++ s.buffer = written es
  closed : s.isOpen = false ↔ .close ∈ es
  done : s.doneReading = true → s.isOpen = false

variable {es fs : List (Event T)} {s s' : Pipe T} {e : Event T}

/-- What each event does to the invariant. -/
theorem Inv.next (h : Inv es s) (he : step s e = some s') : Inv (es ++ [e]) s' := by
  obtain ⟨horder, hclosed, hdone⟩ := h
  revert he
  fun_cases step s e <;> rintro ⟨⟩
  · refine ⟨?_, by simpa using hclosed, hdone⟩
    rw [← append_assoc, horder]
    simp [written]
  · exact ⟨by simpa [written] using horder, by simp, fun _ => rfl⟩
  next h => exact ⟨by simpa [written] using horder, by simpa using hclosed, fun _ => h.1⟩
  next hbuffer =>
    rw [hbuffer] at horder
    exact ⟨by simpa [written] using horder, by simpa using hclosed, hdone⟩

/-- Once the writer has closed, every event brings the end nearer. -/
def Pipe.left (s : Pipe T) : Nat := s.buffer.length + if s.doneReading then 0 else 1

theorem left_step (h : s.isOpen = false) (he : step s e = some s') :
    s'.isOpen = false ∧ s'.left < s.left := by
  revert he
  fun_cases step s e <;> rintro ⟨⟩ <;> simp_all [Pipe.left]

/-- Nothing is lost, doubled or put out of order, the reader's channel is
closed after the last value, the goroutine is always ready, and once the
writer has closed there is an end. -/
theorem bufferedPipe_delivers (h : run step {} es = some s) :
    s.received ++ s.buffer = written es ∧
    (s.Finished → .close ∈ es ∧ s.received = written es) ∧
    (¬ s.Finished → s.Accepts ∨ s.Delivers (written es)) ∧
    (.close ∈ es → ∀ fs s', run step s fs = some s' → fs.length ≤ s.left) := by
  obtain ⟨horder, hclosed, hdone⟩ : Inv es s :=
    run_invariant ⟨rfl, by simp, by simp⟩ (fun _ => Inv.next) h
  refine ⟨horder, fun ⟨hd, hb⟩ => ⟨hclosed.mp (hdone hd), ?_⟩, fun hnot => ?_,
    fun hclose fs s' hrun => ?_⟩
  · simpa [hb] using horder
  · cases hd : s.doneReading with
    | false =>
      left
      unfold Pipe.Accepts
      split <;> simp_all [step]
    | true =>
      right
      obtain ⟨next, buffer, hb⟩ := exists_cons_of_ne_nil fun hb => hnot ⟨hd, hb⟩
      exact ⟨next, _, by simp [← horder, hb], by rw [step, hb], rfl⟩
  · have hleft := run_measure (P := (·.isOpen = false)) (hclosed.mpr hclose) left_step hrun
    exact Nat.le_of_add_right_le hleft.2

theorem bufferedPipe_delivers_one :
    run step {} [.write 7, .close, .notice, .receive] = some ⟨false, true, [], [7]⟩ ∧
      (⟨false, true, [], [7]⟩ : Pipe Nat).received = written [.write 7, .close, .notice, .receive] :=
  ⟨rfl, ((bufferedPipe_delivers rfl).2.1 ⟨rfl, rfl⟩).2⟩

end Dawgs.Ref.Channels
