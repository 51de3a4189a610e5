import Mathlib.Data.Int.Basic
import Mathlib.Data.List.Basic
import Mqo.Lib.Prog

/-!
# Files that are read at a position

`std::ifstream` over the bytes of a file, with `read`, `tellg` and `seekg`. A
read that asks for more bytes than are left fails; on a stream that has failed,
`tellg` is `-1` and nothing else has an effect.

`FileStream.reached before rest` is the stream that has come past `before` and has
`rest` still to be read; on it `read_reached` and `skip_reached` are the two moves,
and `entries_returns` is the rule for a loop that reads one entry of the file after
the other.
-/

/-- A file that is open for reading. -/
structure FileStream where
  bytes : List UInt8
  pos : ℕ
  good : Bool

namespace FileStream

/-- The stream with the given bytes before and after its position. -/
def reached (before rest : List UInt8) : FileStream := ⟨before ++ rest, before.length, true⟩

/-- `read(target, count)`: the bytes that were read. -/
def read (s : FileStream) (count : ℕ) : List UInt8 × FileStream :=
  if s.good = true then
    if s.pos + count ≤ s.bytes.length then
      ((s.bytes.drop s.pos).take count, { s with pos := s.pos + count })
    else (s.bytes.drop s.pos, { s with pos := s.bytes.length, good := false })
  else ([], s)

/-- `tellg()` -/
def tellg (s : FileStream) : ℤ := if s.good = true then s.pos else -1

/-- `seekg(pos, beg)` -/
def seekg (s : FileStream) (pos : ℕ) : FileStream :=
  if s.good = true then { s with pos := pos } else s

/-- `seekg(count, cur)` -/
def skip (s : FileStream) (count : ℕ) : FileStream := s.seekg (s.pos + count)

/-- `clear()` -/
def clear (s : FileStream) : FileStream := { s with good := true }

theorem read_reached {count : ℕ} {x : List UInt8} (h : x.length = count) (before rest : List UInt8) :
    read (reached before (x ++ rest)) count = (x, reached (before ++ x) rest) := by
  subst h
  unfold read reached
  dsimp only
  rw [if_pos rfl, if_pos (by simp), List.drop_left, List.take_left, List.append_assoc,
    List.length_append]

theorem skip_reached {count : ℕ} {x : List UInt8} (h : x.length = count) (before rest : List UInt8) :
    skip (reached before (x ++ rest)) count = reached (before ++ x) rest := by
  subst h
  unfold skip seekg reached
  dsimp only
  rw [if_pos rfl, List.append_assoc, List.length_append]

/-- Going back to an earlier position. -/
theorem seekg_reached (before x rest : List UInt8) :
    seekg (reached (before ++ x) rest) before.length = reached before (x ++ rest) := by
  unfold seekg reached
  rw [if_pos rfl, List.append_assoc]

@[simp] theorem tellg_reached (before rest : List UInt8) : tellg (reached before rest) = before.length :=
  if_pos rfl

@[simp] theorem clear_reached (before rest : List UInt8) : clear (reached before rest) = reached before rest := rfl

/-- **A loop over the entries of a file**: `x` comes as the bytes `entry x`, which the step
for it has to read; `I` speaks about the entries read and the state reached. -/
theorem entries_returns {ε σ α : Type} {f : σ → α → Prog ε σ} (input : σ → FileStream)
    (entry : α → List UInt8) (I : List α → σ → Prop) {l : List α} {before : List UInt8}
    (hstep : ∀ (pre : List α) (x : α) (post : List α) (s : σ), l = pre ++ x :: post → I pre s →
      input s = reached (before ++ pre.flatMap entry) (entry x ++ post.flatMap entry) →
      ∃ s', Prog.Returns (f s x) s' ∧ I (pre ++ [x]) s' ∧
        input s' = reached ((before ++ pre.flatMap entry) ++ entry x) (post.flatMap entry))
    {s : σ} (hs : I [] s) (hinput : input s = reached before (l.flatMap entry)) :
    ∃ s', Prog.Returns (l.foldlM f s) s' ∧ I l s' ∧
      input s' = reached (before ++ l.flatMap entry) [] := by
  obtain ⟨s', hret, hI, hinput'⟩ := Prog.foldlM_returns
    (fun pre s => I pre s ∧
      input s = reached (before ++ pre.flatMap entry) ((l.drop pre.length).flatMap entry))
    (l := l) (fun pre x post s hsplit ⟨hI, hinput⟩ => by
      have hdrop : l.drop pre.length = x :: post := by rw [hsplit, List.drop_left]
      have hdrop' : l.drop (pre ++ [x]).length = post := by
        rw [List.length_append, ← List.drop_drop, hdrop]
        rfl
      rw [hdrop, List.flatMap_cons] at hinput
      obtain ⟨s', hret, hI', hinput'⟩ := hstep pre x post s hsplit hI hinput
      refine ⟨s', hret, hI', ?_⟩
      rw [hinput', hdrop', List.flatMap_append, List.flatMap_singleton, ← List.append_assoc])
    (s := s) ⟨hs, by simpa using hinput⟩
  refine ⟨s', hret, hI, ?_⟩
  rw [hinput', List.drop_length]
  rfl

end FileStream
