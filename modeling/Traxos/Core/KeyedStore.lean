import Mathlib.Data.List.Induction

/-! # Stores written one key at a time

A **keyed store** is a state with reads by key and a set of writes, each of which determines what is
read at its own key, if it has one, and leaves the other keys alone. After a sequence of writes the
last one at a key tells what is read there (`KeyedStore.read_foldl`), so writes at different keys
commute and a repeated write is idempotent. -/

namespace Traxos

universe u v w x

/-- A state that is written one key at a time. -/
structure KeyedStore (σ : Type u) (α : Type v) (κ : Type w) (β : Type x) [DecidableEq κ] where
  /-- The state after a write. -/
  write : σ → α → σ
  /-- What is read at a key. -/
  read : σ → κ → Option β
  /-- The key of a write, none when it changes nothing. -/
  key : α → Option κ
  /-- What a write leaves at its key. -/
  content : α → Option β
  /-- A write determines its own key and leaves the others alone. -/
  read_write : ∀ s a k, read (write s a) k = if key a = some k then content a else read s k

namespace KeyedStore

variable {σ : Type u} {α : Type v} {κ : Type w} {β : Type x} [DecidableEq κ]
  (S : KeyedStore σ α κ β)

/-- The last of a list of writes that is at a key. -/
def lastAt (writes : List α) (k : κ) : Option α := writes.reverse.find? fun a => S.key a = some k

variable {S} {s : σ} {a b : α}

theorem lastAt_concat (writes : List α) (a : α) (k : κ) :
    S.lastAt (writes ++ [a]) k = if S.key a = some k then some a else S.lastAt writes k := by
  rw [lastAt, List.reverse_concat, List.find?_cons]
  by_cases h : S.key a = some k <;> simp [h, lastAt]

/-- **The last write at a key** tells what is read there; without one nothing has changed. -/
theorem read_foldl (s : σ) (writes : List α) (k : κ) :
    S.read (writes.foldl S.write s) k =
      ((S.lastAt writes k).map S.content).getD (S.read s k) := by
  induction writes using List.reverseRecOn with
  | nil => rfl
  | append_singleton writes a ih =>
    rw [List.foldl_append, List.foldl_cons, List.foldl_nil, S.read_write, lastAt_concat, ih]
    by_cases h : S.key a = some k
    · rw [if_pos h, if_pos h]
      rfl
    · rw [if_neg h, if_neg h]

/-- The last write at a key of a list that was continued. -/
theorem lastAt_append (writes writes' : List α) (k : κ) :
    S.lastAt (writes ++ writes') k = (S.lastAt writes' k).or (S.lastAt writes k) := by
  rw [lastAt, List.reverse_append, List.find?_append]
  rfl

/-- Writes at different keys commute. -/
theorem read_write_comm (h : ∀ k, S.key a = some k → S.key b ≠ some k) (k : κ) :
    S.read (S.write (S.write s a) b) k = S.read (S.write (S.write s b) a) k := by
  rw [S.read_write, S.read_write, S.read_write, S.read_write]
  by_cases ha : S.key a = some k
  · rw [if_neg (h k ha), if_pos ha, if_pos ha]
  · rw [if_neg ha, if_neg ha]

/-- A repeated write changes nothing. -/
theorem read_write_self (k : κ) :
    S.read (S.write (S.write s a) a) k = S.read (S.write s a) k := by
  rw [S.read_write, S.read_write]
  by_cases ha : S.key a = some k
  · rw [if_pos ha, if_pos ha]
  · rw [if_neg ha, if_neg ha]

end KeyedStore

end Traxos
