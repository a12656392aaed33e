import DisplayList.Proofs.Edits

namespace DisplayList

open Columns (ofList)

inductive Change where
  | push (i : Instruction)
  | replace (start stop : Nat) (i : Instruction)
  | retain (start stop : Nat) (keep : Nat → Bool)

namespace Change

def Within (is : List Instruction) : Change → Prop
  | push _ => True
  | replace start stop _ | retain start stop _ => start ≤ stop ∧ stop ≤ is.length

instance (is : List Instruction) : (e : Change) → Decidable (e.Within is)
  | push _ => inferInstanceAs (Decidable True)
  | replace .. | retain .. => inferInstanceAs (Decidable (_ ∧ _))

/-- What an edit makes of a list. Nothing outside of a range is dropped, and inside of it what is at offsets that `keep`
does not hold of. -/
def result (is : List Instruction) : Change → List Instruction
  | push i => is ++ [i]
  | replace start stop i => is.take start ++ i :: is.drop stop
  | retain start stop keep => (is.zipIdx.filter fun p ↦ p.2 < start || stop ≤ p.2 || keep (p.2 - start)).map Prod.fst

def performOn (is : List Instruction) (e : Change) : Except Fault (List Instruction) :=
  if e.Within is then .ok (e.result is) else .error .outOfRange

def perform (c : Columns) : Change → Except Fault Columns
  | push i => .ok (c.push i.tag i.args)
  | replace start stop i => c.replaceIn start stop i.tag i.args
  | retain start stop keep => c.retainIn start stop keep

end Change

section Kept

variable {α : Type} {f g : Nat → Bool} {k m : Nat} {xs : List α}

theorem map_filter_zipIdx (f : Nat → Bool) (xs : List α) (k : Nat) :
    ((xs.zipIdx k).filter fun p ↦ f p.2).map Prod.fst = keptFrom f k xs := by
  induction xs generalizing k with
  | nil => rfl
  | cons x xs ih =>
    rw [List.zipIdx_cons, keptFrom]
    cases h : f k <;> simp [h, ih]

theorem keptFrom_congr (h : ∀ o < xs.length, f (k + o) = g (m + o)) : keptFrom f k xs = keptFrom g m xs := by
  induction xs generalizing k m with
  | nil => rfl
  | cons x xs ih =>
    have hfirst : f k = g m := h 0 (Nat.succ_pos _)
    have hrest : keptFrom f (k + 1) xs = keptFrom g (m + 1) xs := by
      apply ih
      intro o ho
      rw [Nat.add_right_comm, Nat.add_right_comm m]
      exact h (o + 1) (Nat.succ_lt_succ ho)
    rw [keptFrom, keptFrom, hfirst, hrest]

theorem keptFrom_of_forall (h : ∀ o < xs.length, f (k + o)) : keptFrom f k xs = xs := by
  induction xs generalizing k with
  | nil => rfl
  | cons x xs ih =>
    have hfirst : f k = true := h 0 (Nat.succ_pos _)
    rw [keptFrom, if_pos hfirst, ih]
    intro o ho
    rw [Nat.add_right_comm]
    exact h (o + 1) (Nat.succ_lt_succ ho)

end Kept

namespace Change

variable {is : List Instruction} {c : Columns} {start stop : Nat}

theorem result_replace (pre mid post : List Instruction) (i : Instruction) :
    (replace pre.length (pre.length + mid.length) i).result (pre ++ mid ++ post) = pre ++ i :: post := by
  rw [result, List.append_assoc, List.take_left, ← List.length_append, ← List.append_assoc, List.drop_left]

theorem result_retain (pre mid post : List Instruction) (keep : Nat → Bool) :
    (retain pre.length (pre.length + mid.length) keep).result (pre ++ mid ++ post) =
      pre ++ keptFrom keep 0 mid ++ post := by
  let f (k : Nat) : Bool := k < pre.length || pre.length + mid.length ≤ k || keep (k - pre.length)
  have hpre : keptFrom f 0 pre = pre := by
    apply keptFrom_of_forall
    intro o ho
    simp [f, ho]
  have hmid : keptFrom f (0 + pre.length) mid = keptFrom keep 0 mid := by
    apply keptFrom_congr
    intro o ho
    have hstart : ¬ pre.length + o < pre.length := by omega
    have hstop : ¬ mid.length ≤ o := Nat.not_le.2 ho
    simp [f, hstart, hstop]
  have hpost : keptFrom f (0 + (pre ++ mid).length) post = post := by
    apply keptFrom_of_forall
    intro o ho
    simp [f]
  calc (retain pre.length (pre.length + mid.length) keep).result (pre ++ mid ++ post)
      = keptFrom f 0 (pre ++ mid ++ post) := map_filter_zipIdx f _ 0
    _ = pre ++ keptFrom keep 0 mid ++ post := by
      rw [keptFrom_append, keptFrom_append, hpre, hmid, hpost]

theorem performOn_of_within {e : Change} (h : e.Within is) : e.performOn is = .ok (e.result is) := if_pos h

theorem performOn_of_not_within {e : Change} (h : ¬ e.Within is) : e.performOn is = .error .outOfRange := if_neg h

theorem holds_iff (is : List Instruction) : (ofList is).Holds start stop ↔ start ≤ stop ∧ stop ≤ is.length := by
  simp [Columns.Holds, ofList]

theorem perform_ofList (is : List Instruction) (e : Change) : e.perform (ofList is) = (e.performOn is).map ofList := by
  by_cases h : e.Within is
  · rw [performOn_of_within h]
    cases e with
    | push i => exact congrArg Except.ok (Columns.push_ofList is i.tag i.args)
    | replace start stop i =>
      obtain ⟨pre, mid, post, rfl, rfl, rfl⟩ := exists_stretch h.1 h.2
      rw [perform, Columns.replaceIn_ofList, result_replace]
      rfl
    | retain start stop keep =>
      obtain ⟨pre, mid, post, rfl, rfl, rfl⟩ := exists_stretch h.1 h.2
      rw [perform, Columns.retainIn_ofList, result_retain]
      rfl
  · rw [performOn_of_not_within h]
    cases e with
    | push i => exact absurd trivial h
    | replace start stop i => exact if_neg (h ∘ (holds_iff is).1)
    | retain start stop keep => exact if_neg (h ∘ (holds_iff is).1)

theorem foldlM_perform_ofList (is : List Instruction) (es : List Change) :
    es.foldlM perform (ofList is) = (es.foldlM performOn is).map ofList := by
  induction es generalizing is with
  | nil => rfl
  | cons e es ih =>
    rw [List.foldlM_cons, List.foldlM_cons, perform_ofList]
    cases h : e.performOn is with
    | error fault => rfl
    | ok is' => exact ih is'

theorem ofList_toList (h : c.Aligned) : ofList c.toList = c := by
  have hsizes : c.tags.size = c.args.size := h
  apply congrArg₂ Columns.mk
  · apply Array.ext
    · simp [Columns.toList, hsizes]
    · simp [Columns.toList]
  · apply Array.ext
    · simp [Columns.toList, hsizes]
    · simp [Columns.toList]

/-- Whatever the edits are, both columns together fail where an edit of the list is out of range, and else they are
aligned and stand for the list that comes of the same edits. -/
theorem columns_edited_as_list (h : c.Aligned) (es : List Change) :
    (∀ c', es.foldlM perform c = .ok c' → c'.Aligned) ∧
      (es.foldlM perform c).map Columns.toList = es.foldlM performOn c.toList := by
  rw [← ofList_toList h, foldlM_perform_ofList, Columns.toList_ofList]
  cases es.foldlM performOn c.toList with
  | error fault => exact ⟨nofun, rfl⟩
  | ok is =>
    refine ⟨?_, congrArg Except.ok (Columns.toList_ofList is)⟩
    rintro _ ⟨⟩
    exact Columns.aligned_ofList is

def numbered : List Instruction := (List.range 10).map fun n : Nat ↦ ⟨⟨n.toUInt8⟩, [.int n]⟩

def thinning : List Change :=
  [.retain 2 7 (fun o ↦ o % 2 = 0), .replace 1 4 ⟨.save, [.bool true]⟩, .push ⟨.restore, []⟩]

theorem columns_edited_as_list_numbered : (ofList numbered).Aligned ∧
    (∀ c', thinning.foldlM perform (ofList numbered) = .ok c' → c'.Aligned) ∧
      (thinning.foldlM perform (ofList numbered)).map Columns.toList =
        thinning.foldlM performOn (ofList numbered).toList :=
  ⟨by decide, columns_edited_as_list (by decide) thinning⟩

example : (thinning.foldlM performOn numbered).map (fun is ↦ is.map (·.tag.code)) =
    .ok [0, 10, 6, 7, 8, 9, 11] := by
  decide

end Change

end DisplayList
