import DisplayList.Proofs.Checked

namespace DisplayList

def keptFrom {α : Type} (keep : Nat → Bool) : Nat → List α → List α
  | _, [] => []
  | k, x :: xs => if keep k then x :: keptFrom keep (k + 1) xs else keptFrom keep (k + 1) xs

section Arrays

variable {α : Type}

theorem filterMap_zipIdx (keep : Nat → Bool) (xs : List α) (k : Nat) :
    (xs.zipIdx k).filterMap (fun p ↦ if keep p.2 then some p.1 else none) = keptFrom keep k xs := by
  induction xs generalizing k with
  | nil => rfl
  | cons x xs ih =>
    rw [List.zipIdx_cons, keptFrom]
    cases h : keep k <;> simp [h, ih]

theorem map_keptFrom {β : Type} (f : α → β) (keep : Nat → Bool) (k : Nat) (xs : List α) :
    (keptFrom keep k xs).map f = keptFrom keep k (xs.map f) := by
  induction xs generalizing k with
  | nil => rfl
  | cons x xs ih => cases h : keep k <;> simp [keptFrom, h, ih]

theorem keptFrom_append (keep : Nat → Bool) (k : Nat) (xs ys : List α) :
    keptFrom keep k (xs ++ ys) = keptFrom keep k xs ++ keptFrom keep (k + xs.length) ys := by
  induction xs generalizing k with
  | nil => simp [keptFrom]
  | cons x xs ih =>
    have hk : k + (x :: xs).length = k + 1 + xs.length := by rw [List.length_cons]; omega
    cases h : keep k <;> simp [keptFrom, h, ih, Nat.add_comm, Nat.add_left_comm]

theorem keptFrom_add {keep : Nat → Bool} {n : Nat} (h : ∀ k, keep (k + n) = keep k) (k : Nat) (xs : List α) :
    keptFrom keep (k + n) xs = keptFrom keep k xs := by
  induction xs generalizing k with
  | nil => rfl
  | cons x xs ih => rw [keptFrom, keptFrom, h, Nat.add_right_comm, ih]

theorem toList_retainBetween (xs : Array α) (start stop : Nat) (keep : Nat → Bool) :
    (retainBetween xs start stop keep).toList =
      xs.toList.take start ++ keptFrom keep 0 ((xs.toList.drop start).take (stop - start)) ++ xs.toList.drop stop := by
  have h : (xs.toList.drop stop).take (xs.size - stop) = xs.toList.drop stop :=
    List.take_of_length_le (by simp)
  simp [retainBetween, ← filterMap_zipIdx, List.extract_eq_take_drop, h]

theorem toList_replaceBetween (xs : Array α) (start stop : Nat) (x : α) :
    (replaceBetween xs start stop x).toList = xs.toList.take start ++ x :: xs.toList.drop stop := by
  have h : (xs.toList.drop stop).take (xs.size - stop) = xs.toList.drop stop :=
    List.take_of_length_le (by simp)
  simp [replaceBetween, List.extract_eq_take_drop, h]

end Arrays

namespace Columns

variable {c : Columns} {q pre mid post : List Instruction} {i : Instruction} {tag : Tag} {args : List Arg}

theorem tags_toList (q : List Instruction) : (ofList q).tags.toList = q.map (·.tag) := rfl

theorem args_toList (q : List Instruction) : (ofList q).args.toList = q.map (·.args) := rfl

@[simp]
theorem size_ofList (q : List Instruction) : (ofList q).size = q.length := by simp [size, ofList]

@[simp]
theorem toList_ofList (q : List Instruction) : (ofList q).toList = q := by
  rw [toList, tags_toList, args_toList, List.zipWith_map]
  induction q with
  | nil => rfl
  | cons i q ih => rw [List.zipWith_cons_cons, ih]

theorem ofList_injective : Function.Injective ofList := Function.LeftInverse.injective toList_ofList

theorem aligned_ofList (q : List Instruction) : (ofList q).Aligned := by simp [Aligned, ofList]

theorem push_ofList (q : List Instruction) (tag : Tag) (args : List Arg) :
    (ofList q).push tag args = ofList (q ++ [⟨tag, args⟩]) := by
  simp [push, ofList]

theorem tagAt_ofList {k : Nat} (h : q[k]? = some i) : (ofList q).tagAt k = .ok i.tag := by
  obtain ⟨hk, rfl⟩ := List.getElem?_eq_some_iff.1 h
  simp [tagAt, ofList, hk]

theorem argsAt_ofList {k : Nat} (h : q[k]? = some i) : (ofList q).argsAt k = .ok i.args := by
  obtain ⟨hk, rfl⟩ := List.getElem?_eq_some_iff.1 h
  simp [argsAt, ofList, hk]

theorem holds_ofList (pre mid post : List Instruction) :
    (ofList (pre ++ mid ++ post)).Holds pre.length (pre.length + mid.length) := by
  simp only [Holds, ofList, List.size_toArray, List.length_map, List.length_append]
  omega

theorem replaceIn_ofList (pre mid post : List Instruction) (tag : Tag) (args : List Arg) :
    (ofList (pre ++ mid ++ post)).replaceIn pre.length (pre.length + mid.length) tag args =
      .ok (ofList (pre ++ ⟨tag, args⟩ :: post)) := by
  rw [replaceIn, if_pos (holds_ofList pre mid post), replace]
  congr 2
  · apply Array.toList_inj.1
    rw [toList_replaceBetween, tags_toList]
    simp [List.drop_append]
  · apply Array.toList_inj.1
    rw [toList_replaceBetween, args_toList]
    simp [List.drop_append]

theorem retainIn_ofList (pre mid post : List Instruction) (keep : Nat → Bool) :
    (ofList (pre ++ mid ++ post)).retainIn pre.length (pre.length + mid.length) keep =
      .ok (ofList (pre ++ keptFrom keep 0 mid ++ post)) := by
  rw [retainIn, if_pos (holds_ofList pre mid post), retain]
  congr 2
  · apply Array.toList_inj.1
    rw [toList_retainBetween, tags_toList]
    simp [List.drop_append, map_keptFrom]
  · apply Array.toList_inj.1
    rw [toList_retainBetween, args_toList]
    simp [List.drop_append, map_keptFrom]

theorem retagAt_ofList (pre post : List Instruction) (i : Instruction) (tag : Tag) :
    (ofList (pre ++ i :: post)).retagAt pre.length tag = .ok (ofList (pre ++ { i with tag } :: post)) := by
  have h : pre.length < (ofList (pre ++ i :: post)).tags.size := by simp [ofList]
  rw [retagAt, if_pos h, retag]
  congr 2
  · apply Array.toList_inj.1
    rw [Array.toList_setIfInBounds, tags_toList]
    simp
  · apply Array.toList_inj.1
    rw [args_toList]
    simp

end Columns

end DisplayList
