import DisplayList.Proofs.Delivery

namespace DisplayList.Builder

inductive Event where
  | appended (i : Instruction)
  | flushed (isLast : Bool)

def Event.instruction? : Event → Option Instruction
  | appended i => some i
  | flushed _ => none

/-- What a call leaves. A call that fails leaves the list as it is. -/
def Call.effect (b : Builder) (c : Call) : Builder :=
  match c.perform b with
  | .ok b' => b'
  | .error _ => b

@[simp]
theorem Call.effect_add (b : Builder) (tag : Tag) (args : List Arg) : (add tag args).effect b = b.add tag args := rfl

@[simp]
theorem Call.effect_addDependency (b : Builder) (id : String) : (addDependency id).effect b = b.addDependency id := rfl

@[simp]
theorem Call.effect_append (b other : Builder) : (append other).effect b = b.append other := rfl

def Call.events (b : Builder) : Call → List Event
  | flush isLast => if b.sink.isSome then [.flushed isLast] else []
  | c => (c.written b).map .appended

def eventsBy : Builder → List Call → List Event
  | _, [] => []
  | b, c :: cs => c.events b ++ eventsBy (c.effect b) cs

/-- A property of a list, and of what happened to it, that it keeps whatever happens next. -/
structure Kept (P : Builder → List Event → Prop) : Prop where
  add {b : Builder} {es : List Event} (ids : List String) (tag : Tag) (args : List Arg) (h : P b es) :
    P (Builder.add { b with dependencies := ids } tag args) (es ++ [.appended ⟨tag, args⟩])
  deliver {b : Builder} {es : List Event} {s : Sink} (isLast : Bool) (hs : b.sink = some s) (h : P b es) :
    P (b.deliver s isLast) (es ++ [.flushed isLast])

variable {P : Builder → List Event → Prop} {b : Builder} {es : List Event}

theorem Kept.addDependency (hP : Kept P) (h : P b es) (id : String) :
    P (b.addDependency id) (es ++ (b.writtenFor id).map .appended) := by
  rw [Builder.addDependency, writtenFor]
  split
  · rwa [List.map_nil, List.append_nil]
  · exact hP.add (id :: b.dependencies) .dependency [.name id] h

theorem Kept.splice (hP : Kept P) (h : P b es) (i : Instruction) :
    P (b.splice i) (es ++ (b.writtenOf i).map .appended) := by
  rw [Builder.splice, writtenOf]
  cases announced? i with
  | none => exact hP.add b.dependencies i.tag i.args h
  | some id =>
    dsimp only
    split
    · rwa [List.map_nil, List.append_nil]
    · exact hP.add (id :: b.dependencies) i.tag i.args h

theorem Kept.foldl {α : Type} {write : Builder → α → List Instruction} {edit : Builder → α → Builder}
    (hedit : ∀ b es a, P b es → P (edit b a) (es ++ (write b a).map .appended)) (h : P b es) (as : List α) :
    P (as.foldl edit b) (es ++ (writtenBy write edit b as).map .appended) := by
  induction as generalizing b es with
  | nil => rwa [writtenBy, List.map_nil, List.append_nil]
  | cons a as ih =>
    rw [writtenBy, List.map_append, ← List.append_assoc]
    exact ih (hedit b es a h)

theorem Kept.effect (hP : Kept P) (h : P b es) (c : Call) : P (c.effect b) (es ++ c.events b) := by
  cases c with
  | add tag args => exact hP.add b.dependencies tag args h
  | addDependency id => exact hP.addDependency h id
  | addDependencies ids => exact Kept.foldl (P := P) (fun _ _ id h ↦ hP.addDependency h id) h ids
  | append other => exact Kept.foldl (P := P) (fun _ _ i h ↦ hP.splice h i) h other.queue.toList
  | flush isLast =>
    rw [Call.effect, Call.perform, Builder.flush, Call.events]
    cases hs : b.sink with
    | none =>
      rwa [if_neg (by simp), List.append_nil]
    | some s => exact hP.deliver isLast hs h

theorem Kept.calls (hP : Kept P) (h : P b es) (cs : List Call) : P (cs.foldl Call.effect b) (es ++ eventsBy b cs) := by
  induction cs generalizing b es with
  | nil => rwa [eventsBy, List.append_nil]
  | cons c cs ih =>
    rw [eventsBy, ← List.append_assoc]
    exact ih (hP.effect h c)

theorem kept_sink : Kept (fun b _ ↦ b.sink.isSome) where
  add {b _} ids tag args h := by
    obtain ⟨s, hs⟩ := Option.isSome_iff_exists.1 h
    have he := (sink_enqueue { b with dependencies := ids } tag args).trans hs
    rw [add_eq he]
    split
    · rfl
    · exact Option.isSome_iff_exists.2 ⟨s, he⟩
  deliver _ _ _ := rfl

theorem perform_eq_effect (h : b.sink.isSome) (c : Call) : c.perform b = .ok (c.effect b) := by
  cases c with
  | flush isLast =>
    obtain ⟨s, hs⟩ := Option.isSome_iff_exists.1 h
    rw [Call.effect, Call.perform, Builder.flush, hs]
  | _ => rfl

theorem isSome_sink_effect (h : b.sink.isSome) (c : Call) : (c.effect b).sink.isSome :=
  @Kept.effect _ b [] kept_sink h c

theorem isSome_sink_calls (h : b.sink.isSome) (cs : List Call) : (cs.foldl Call.effect b).sink.isSome :=
  @Kept.calls _ b [] kept_sink h cs

theorem foldlM_perform (h : b.sink.isSome) (cs : List Call) :
    cs.foldlM Call.perform b = .ok (cs.foldl Call.effect b) := by
  induction cs generalizing b with
  | nil => rfl
  | cons c cs ih =>
    rw [List.foldlM_cons, perform_eq_effect h c, ok_bind, List.foldl_cons]
    exact ih (isSome_sink_effect h c)

def instructionsIn (es : List Event) : List Instruction := es.filterMap Event.instruction?

@[simp]
theorem instructionsIn_append (es es' : List Event) :
    instructionsIn (es ++ es') = instructionsIn es ++ instructionsIn es' :=
  List.filterMap_append

@[simp]
theorem instructionsIn_appended (is : List Instruction) : instructionsIn (is.map .appended) = is := by
  simp [instructionsIn, List.filterMap_map, Function.comp_def, Event.instruction?]

theorem instructionsIn_events (b : Builder) (c : Call) : instructionsIn (c.events b) = c.written b := by
  cases c with
  | flush isLast =>
    rw [Call.events, Call.written]
    split <;> rfl
  | _ => exact instructionsIn_appended _

theorem appendedBy_eq (h : b.sink.isSome) (cs : List Call) : appendedBy b cs = instructionsIn (eventsBy b cs) := by
  induction cs generalizing b with
  | nil => rfl
  | cons c cs ih =>
    rw [appendedBy, perform_eq_effect h c, eventsBy, instructionsIn_append, instructionsIn_events]
    exact congrArg (c.written b ++ ·) (ih (isSome_sink_effect h c))

end DisplayList.Builder
