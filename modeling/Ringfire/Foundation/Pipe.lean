import Mathlib.Data.List.Basic

/-!
# A stream between a writer and a reader

A writer hands over its elements a few at a time, as many as the stream takes, and a reader asks for
a number of elements and gets them a few at a time, as many as there are. Neither changes what the
stream is, from the first element the reader has not dealt with to the last one the writer has.

## Main definitions

* `Pipe`, `Pipe.stream`
* `Pipe.post`, `Pipe.write`, `Pipe.read`, `Pipe.finish`: what the two ends do
* `Pipe.Asked`: the reader has read no more than it asked for
* `Pipe.lag`: how much is still to be moved

## Main results

* `write_stream`, `read_stream`, `post_stream`, `finish_stream`: what becomes of the stream
* `write_lag`, `read_lag`: every piece moved lessens the lag
* `exists_move`: until the reader has what it asked for, a piece can be moved
-/

variable {β : Type*}

/-- What the writer has still to write, what is on the way, and what the reader has read. -/
structure Pipe (β : Type*) where
  unsent : List β
  transit : List β
  held : List β

namespace Pipe

variable {p p' : Pipe β} {n want : ℕ}

/-- Nothing was written and nothing was read. -/
def empty : Pipe β := ⟨[], [], []⟩

/-- What the reader has not dealt with. -/
def stream (p : Pipe β) : List β := p.held ++ p.transit ++ p.unsent

/-- The writer has more to write. -/
def post (p : Pipe β) (more : List β) : Pipe β := { p with unsent := p.unsent ++ more }

/-- The stream takes `n` elements from the writer. -/
def write (p : Pipe β) (n : ℕ) : Option (Pipe β) :=
  if 1 ≤ n ∧ n ≤ p.unsent.length then
    some { p with transit := p.transit ++ p.unsent.take n, unsent := p.unsent.drop n }
  else none

/-- The reader, which wants to hold `want` elements, gets `n`. -/
def read (want : ℕ) (p : Pipe β) (n : ℕ) : Option (Pipe β) :=
  if 1 ≤ n ∧ n ≤ p.transit.length ∧ p.held.length + n ≤ want then
    some { p with held := p.held ++ p.transit.take n, transit := p.transit.drop n }
  else none

/-- The reader has dealt with what it holds. -/
def finish (p : Pipe β) : Pipe β := { p with held := [] }

/-- The reader holds no more than it asked for. -/
def Asked (p : Pipe β) (want : ℕ) : Prop := p.held.length ≤ want

/-- How often an element still moves before the reader has it. -/
def lag (p : Pipe β) : ℕ := 2 * p.unsent.length + p.transit.length

theorem post_stream (p : Pipe β) (more : List β) : (p.post more).stream = p.stream ++ more := by
  simp only [stream, post, List.append_assoc]

theorem finish_stream (p : Pipe β) : p.stream = p.held ++ p.finish.stream := by
  simp only [stream, finish, List.append_assoc, List.nil_append]

theorem write_eq_some : p.write n = some p' ↔ (1 ≤ n ∧ n ≤ p.unsent.length) ∧
    p' = { p with transit := p.transit ++ p.unsent.take n, unsent := p.unsent.drop n } := by
  rw [write, Option.ite_none_right_eq_some, Option.some.injEq]
  exact and_congr_right fun _ => eq_comm

theorem read_eq_some : p.read want n = some p' ↔
    (1 ≤ n ∧ n ≤ p.transit.length ∧ p.held.length + n ≤ want) ∧
    p' = { p with held := p.held ++ p.transit.take n, transit := p.transit.drop n } := by
  rw [read, Option.ite_none_right_eq_some, Option.some.injEq]
  exact and_congr_right fun _ => eq_comm

/-- **Writing does not change the stream.** -/
theorem write_stream (h : p.write n = some p') : p'.stream = p.stream := by
  obtain ⟨-, rfl⟩ := write_eq_some.mp h
  simp only [stream, List.append_assoc, List.take_append_drop]

/-- **Reading does not change the stream.** -/
theorem read_stream (h : p.read want n = some p') : p'.stream = p.stream := by
  obtain ⟨-, rfl⟩ := read_eq_some.mp h
  have hsplit := List.take_append_drop n p.transit
  rw [stream, stream, List.append_assoc p.held, hsplit]

theorem write_held (h : p.write n = some p') : p'.held = p.held := by
  obtain ⟨-, rfl⟩ := write_eq_some.mp h
  rfl

/-- What was read before is still there. -/
theorem read_held (h : p.read want n = some p') : p.held <+: p'.held := by
  obtain ⟨-, rfl⟩ := read_eq_some.mp h
  exact List.prefix_append _ _

theorem Asked.read (h : p.read want n = some p') : p'.Asked want := by
  obtain ⟨⟨-, hn, hwant⟩, rfl⟩ := read_eq_some.mp h
  rw [Asked, List.length_append, List.length_take_of_le hn]
  exact hwant

theorem write_lag (h : p.write n = some p') : p'.lag < p.lag := by
  obtain ⟨⟨hpos, hn⟩, rfl⟩ := write_eq_some.mp h
  simp only [lag, List.length_append, List.length_take, List.length_drop]
  omega

theorem read_lag (h : p.read want n = some p') : p'.lag < p.lag := by
  obtain ⟨⟨hpos, hn, -⟩, rfl⟩ := read_eq_some.mp h
  simp only [lag, List.length_drop]
  omega

/-- **Until the reader has what it asked for, a piece can be moved**, as long as there is enough on
the stream. -/
theorem exists_move (h : p.held.length < want) (hstream : want ≤ p.stream.length) :
    (p.write 1).isSome = true ∨ (p.read want 1).isSome = true := by
  have hlen : p.stream.length = p.held.length + p.transit.length + p.unsent.length := by
    rw [stream, List.length_append, List.length_append]
  by_cases htransit : 1 ≤ p.transit.length
  · refine .inr ?_
    rw [read, if_pos ⟨Nat.le_refl 1, htransit, h⟩]
    rfl
  · refine .inl ?_
    rw [write, if_pos ⟨Nat.le_refl 1, by omega⟩]
    rfl

/-- Everything is written at once, if there is anything. -/
theorem exists_written (p : Pipe β) :
    ∃ p', (p' = p ∨ ∃ n, p.write n = some p') ∧ p'.unsent = [] ∧ p'.held = p.held := by
  by_cases h : p.unsent = []
  · exact ⟨p, .inl rfl, h, rfl⟩
  · refine ⟨_, .inr ⟨p.unsent.length, write_eq_some.mpr ⟨⟨?_, Nat.le_refl _⟩, rfl⟩⟩, ?_, rfl⟩
    · exact List.length_pos_of_ne_nil h
    · exact List.drop_length

end Pipe
