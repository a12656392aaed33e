import DisplayList.Fault
import Mathlib.Order.Nat

namespace DisplayList

section Loops

variable {ε α β σ : Type}

@[simp]
theorem ok_bind (a : α) (f : α → Except ε β) : (Except.ok a >>= f) = f a := rfl

@[simp]
theorem pure_eq_ok (a : α) : (pure a : Except ε α) = .ok a := rfl

theorem bind_eq_ok {x : Except ε α} {f : α → Except ε β} {b : β} (h : (x >>= f) = .ok b) :
    ∃ a, x = .ok a ∧ f a = .ok b := by
  cases x with
  | error e => cases h
  | ok a => exact ⟨a, rfl, h⟩

theorem mapM_ok {f : α → Except ε β} {g : α → β} {l : List α} (h : ∀ a ∈ l, f a = .ok (g a)) :
    l.mapM f = .ok (l.map g) := by
  induction l with
  | nil => rfl
  | cons a l ih =>
    rw [List.mapM_cons, h a List.mem_cons_self, ih fun b hb ↦ h b (List.mem_cons_of_mem a hb)]
    rfl

theorem foldlM_ok {P : σ → Prop} {f : σ → α → Except ε σ} {l : List α}
    (h : ∀ a ∈ l, ∀ s, P s → ∃ s', f s a = .ok s' ∧ P s') {s : σ} (hs : P s) :
    ∃ s', l.foldlM f s = .ok s' ∧ P s' := by
  induction l generalizing s with
  | nil => exact ⟨s, rfl, hs⟩
  | cons a l ih =>
    obtain ⟨s₁, h₁, hs₁⟩ := h a List.mem_cons_self s hs
    obtain ⟨s₂, h₂, hs₂⟩ := ih (fun b hb ↦ h b (List.mem_cons_of_mem a hb)) hs₁
    exact ⟨s₂, by rw [List.foldlM_cons, h₁, ok_bind, h₂], hs₂⟩

theorem append_cons_eq_concat {as before after : List α} {a b : α} (h : as ++ [b] = before ++ a :: after) :
    (as = before ∧ b = a ∧ after = []) ∨ ∃ after', as = before ++ a :: after' ∧ after = after' ++ [b] := by
  obtain rfl | ⟨after', x, rfl⟩ := List.eq_nil_or_concat after
  · obtain ⟨has, hb⟩ := List.append_inj' h rfl
    exact .inl ⟨has, List.singleton_inj.mp hb, rfl⟩
  · rw [List.concat_eq_append, ← List.cons_append, ← List.append_assoc] at h
    obtain ⟨has, hb⟩ := List.append_inj' h rfl
    exact .inr ⟨after', has, by rw [List.concat_eq_append, List.singleton_inj.mp hb]⟩

end Loops

theorem distance_ok {low high : Nat} (h : low ≤ high) : distance low high = .ok (high - low) := if_pos h

section Buffers

variable {b piece : ByteArray} {start length target : Nat}

theorem slice_ok (h : start + length ≤ b.size) :
    ∃ piece, slice b start length = .ok piece ∧ piece.size = length := by
  refine ⟨_, if_pos h, ?_⟩
  rw [ByteArray.size_extract]
  omega

theorem size_copySlice (h : start + piece.size ≤ b.size) :
    (piece.copySlice 0 b start piece.size).size = b.size := by
  simp only [ByteArray.copySlice, ByteArray.size, Array.size_append, Array.size_extract] at h ⊢
  omega

theorem overwrite_ok (h : start + piece.size ≤ b.size) :
    ∃ b', overwrite b start piece = .ok b' ∧ b'.size = b.size :=
  ⟨_, if_pos h, size_copySlice h⟩

theorem copyWithin_ok (h : start + length ≤ b.size) (ht : target + length ≤ b.size) :
    ∃ b', copyWithin b start length target = .ok b' ∧ b'.size = b.size := by
  obtain ⟨piece, hp, rfl⟩ := slice_ok h
  obtain ⟨b', hb, hs⟩ := overwrite_ok ht
  exact ⟨b', by rw [copyWithin, hp, ok_bind, hb], hs⟩

theorem size_filled (byte : UInt8) (n : Nat) : (filled byte n).size = n := by
  induction n using Nat.strongRecOn with
  | _ n ih =>
    rw [filled]
    split
    · rename_i h; rw [h]; rfl
    · have hh := ih (n / 2) (by omega)
      dsimp only
      split
      · rw [ByteArray.size_append, hh]; omega
      · rw [ByteArray.size_push, ByteArray.size_append, hh]; omega

end Buffers

end DisplayList
