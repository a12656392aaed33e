import DisplayList.Proofs.Scripts

namespace DisplayList

open Builder (Call Counterparts eventsBy instructionsIn)

def bare (is : List Instruction) : List Instruction := is.filter fun i ↦ i.tag ≠ .dependency

def Addition.instruction? : Addition → Option Instruction
  | dependency _ => none
  | instruction i => some i

def ArePlain (additions : List Addition) : Prop :=
  ∀ i ∈ additions.filterMap Addition.instruction?, i.tag ≠ .dependency

instance (additions : List Addition) : Decidable (ArePlain additions) := inferInstanceAs (Decidable (∀ _ ∈ _, _))

structure Script.IsPlain (s : Script) : Prop where
  content : ArePlain s.content
  annots : ∀ x ∈ s.annots, ArePlain x.2

def Annot.stretch (a : Annot) (additions : List Addition) : List Instruction :=
  match a.appearance with
  | none => []
  | some look => a.opening look :: additions.filterMap Addition.instruction? ++ [⟨.endAnnot, []⟩]

/-- The content of a page, followed by the annotations that are drawn. -/
def Script.stream (s : Script) (intent : Intent) : List Instruction :=
  s.content.filterMap Addition.instruction? ++ ⟨.beginAnnots, []⟩ ::
    (s.drawn intent).flatMap (fun x ↦ x.1.stretch x.2) ++ [⟨.endAnnots, []⟩]

def Page.onlyFor (p : Page) (intent : Intent) : Page :=
  { p with annots := (p.annots.filter (·.isRenderedFor intent)).map ({ · with flags := ⟨0⟩ }) }

def Script.onlyFor (s : Script) (intent : Intent) : Script :=
  { s with annots := (s.drawn intent).map fun x ↦ ({ x.1 with flags := ⟨0⟩ }, x.2) }

def markerTags : List Tag := [.beginAnnots, .endAnnots, .beginAnnot, .endAnnot]

/-- Every marker is still there, and what was before it is drawn before it, what was after it after it. -/
structure KeepsMarkers (l : Limits) (plain drawn : List Instruction) : Prop where
  markers : drawn.filter (·.tag ∈ markerTags) = plain.filter (·.tag ∈ markerTags)
  places : ∀ before m after, plain = before ++ m :: after → m.tag ∈ markerTags →
    ∃ before' after', drawn = before' ++ m :: after' ∧ Draws l before before' ∧ Draws l after after'

def Rendering.chunks (r : Rendering) : List Chunk := r.sink.recorded.map (·.chunk)

section Bare

variable {is js : List Instruction} {additions : List Addition} {b : Builder}

@[simp]
theorem bare_append (is js : List Instruction) : bare (is ++ js) = bare is ++ bare js := List.filter_append ..

@[simp]
theorem bare_nil : bare [] = [] := rfl

theorem bare_singleton {i : Instruction} (h : i.tag ≠ .dependency) : bare [i] = [i] := by simp [bare, h]

theorem bare_marker {tag : Tag} (h : tag ∈ markerTags) (args : List Arg) : bare [⟨tag, args⟩] = [⟨tag, args⟩] := by
  apply bare_singleton
  rintro rfl
  exact absurd h (by decide)

theorem bare_dependency {i : Instruction} (h : i.tag = .dependency) : bare [i] = [] := by simp [bare, h]

namespace Builder

def Call.bare : Call → List Instruction
  | add tag args => DisplayList.bare [⟨tag, args⟩]
  | append other => DisplayList.bare other.queue.toList
  | addDependency _ | addDependencies _ | flush _ => []

theorem bare_writtenBy {α : Type} {write : Builder → α → List Instruction} {edit : Builder → α → Builder}
    {out : α → List Instruction} (h : ∀ b a, bare (write b a) = out a) (b : Builder) (as : List α) :
    bare (writtenBy write edit b as) = as.flatMap out := by
  induction as generalizing b with
  | nil => rfl
  | cons a as ih => simp [writtenBy, h, ih]

theorem bare_writtenFor (b : Builder) (id : String) : bare (b.writtenFor id) = [] := by
  rw [writtenFor]
  split
  · rfl
  · exact bare_dependency rfl

theorem bare_writtenOf (b : Builder) (i : Instruction) : bare (b.writtenOf i) = bare [i] := by
  rw [writtenOf]
  split
  · rename_i id hid
    have htag : i.tag = .dependency := by
      by_contra htag
      simp [announced?, htag] at hid
    split <;> simp [bare_dependency htag]
  · rfl

theorem bare_written (b : Builder) (c : Call) : bare (c.written b) = c.bare := by
  cases c with
  | add => rfl
  | addDependency id => exact bare_writtenFor b id
  | addDependencies ids =>
    rw [Call.written, bare_writtenBy bare_writtenFor]
    simp [Call.bare]
  | append other =>
    rw [Call.written, bare_writtenBy bare_writtenOf, Call.bare]
    generalize other.queue.toList = is
    induction is with
    | nil => rfl
    | cons i is ih => rw [List.flatMap_cons, ih, ← bare_append, List.singleton_append]
  | flush => rfl

theorem bare_events (b : Builder) (cs : List Call) : bare (instructionsIn (eventsBy b cs)) = cs.flatMap Call.bare := by
  induction cs generalizing b with
  | nil => rfl
  | cons c cs ih => simp [eventsBy, instructionsIn_events, bare_written, ih]

theorem kept_queue : Kept fun b es ↦ b.sink = none ∧ Pends none b.optimizer b.queue (instructionsIn es) where
  add {b es} ids tag args h := by
    have hsink := (sink_enqueue { b with dependencies := ids } tag args).trans h.1
    rw [add_of_none hsink, instructionsIn_append]
    exact ⟨hsink, Pends.enqueue (b := { b with dependencies := ids }) h.2 tag args⟩
  deliver isLast hs h := by cases hs.symm.trans h.1

theorem toList_queue_calls (cs : List Call) :
    (cs.foldl Call.effect empty).queue.toList = instructionsIn (eventsBy empty cs) := by
  obtain ⟨-, -, hqueue⟩ := @Kept.calls _ empty [] kept_queue ⟨rfl, rfl, rfl⟩ cs
  simp [hqueue]

end Builder

theorem flatMap_bare_calls (h : ArePlain additions) :
    (additions.map Addition.call).flatMap Call.bare = additions.filterMap Addition.instruction? := by
  induction additions with
  | nil => rfl
  | cons a additions ih =>
    cases a with
    | dependency id =>
      rw [ArePlain, List.filterMap_cons_none rfl] at h
      rw [List.filterMap_cons_none rfl, ← ih h]
      simp [Addition.call, Call.bare]
    | instruction i =>
      have hsome : (Addition.instruction i :: additions).filterMap Addition.instruction? =
        i :: additions.filterMap Addition.instruction? := rfl
      rw [ArePlain, hsome, List.forall_mem_cons] at h
      rw [hsome, ← ih h.2]
      simp [Addition.call, Call.bare, bare_singleton h.1]

theorem Annot.bare_list (a : Annot) (h : ArePlain additions) :
    bare (a.list additions).queue.toList = a.stretch additions := by
  rw [list, Builder.toList_queue_calls, Builder.bare_events, calls, stretch]
  cases a.appearance with
  | none => rfl
  | some look =>
    simp (disch := decide) [Call.bare, flatMap_bare_calls h, bare_marker, opening]

theorem Script.flatMap_bare_edits {s : Script} (h : s.IsPlain) (intent : Intent) :
    (s.edits intent).flatMap Call.bare = s.stream intent := by
  have hlists : ((s.drawn intent).map fun x ↦ Call.append (x.1.list x.2)).flatMap Call.bare =
      (s.drawn intent).flatMap fun x ↦ x.1.stretch x.2 := by
    rw [List.flatMap_map]
    refine List.flatMap_congr fun x hx ↦ x.1.bare_list (h.annots x ?_)
    exact List.mem_of_mem_filter hx
  simp only [edits, annotCalls, stream, List.flatMap_append, List.flatMap_cons, flatMap_bare_calls h.content, hlists]
  simp (disch := decide) [Call.bare, bare_marker]

end Bare

section Lists

variable {p : Page} {s : Script} {o : RenderOptions} {w : Worker} {l : Limits} {appended plain drawn : List Instruction}

theorem Draws.keepsMarkers (h : Draws l plain drawn) : KeepsMarkers l plain drawn := by
  have hmarkers (tag : Tag) (htag : tag ∈ markerTags) : tag ∉ batchedTags := by
    revert tag
    decide
  refine ⟨h.filter_eq fun i hi ↦ ?_, ?_⟩
  · simpa using fun htag ↦ hmarkers i.tag htag hi
  · rintro before m after rfl hm
    exact h.split (hmarkers m.tag hm)

theorem Builder.Counterparts.keepsMarkers {drawn plain : Chunk} (h : Counterparts l drawn plain)
    (hl : l.violation? = none) : KeepsMarkers l plain.columns.toList drawn.columns.toList := by
  obtain ⟨q, hq, hdraws⟩ := Optimizer.exists_optimized hl plain.columns.toList
  rw [h.columns, hq, Columns.toList_ofList]
  exact hdraws.keepsMarkers

theorem Builder.Tied.effects {drawn plain : Builder} (hl : l.Valid) (h : Tied l appended drawn plain)
    (cs : List Call) :
    Tied l (appended ++ instructionsIn (eventsBy plain cs)) (cs.foldl Call.effect drawn)
      (cs.foldl Call.effect plain) := by
  obtain ⟨ms, ms', hms, hms'⟩ := h.sinks
  have hdrawn : drawn.sink.isSome := by simp [hms]
  have hplain : plain.sink.isSome := by simp [hms']
  obtain ⟨drawn', plain', hd, hp, h'⟩ := h.calls hl cs
  rw [foldlM_perform hdrawn] at hd
  rw [foldlM_perform hplain] at hp
  obtain rfl := Except.ok.inj hd
  obtain rfl := Except.ok.inj hp
  rwa [appendedBy_eq hplain] at h'

theorem Builder.queue_flushed {b : Builder} (h : b.sink.isSome) (isLast : Bool) :
    (Call.effect b (.flush isLast)).queue = {} := by
  obtain ⟨sink, hsink⟩ := Option.isSome_iff_exists.1 h
  simp [Call.effect, Call.perform, flush, hsink, deliver]

theorem Script.lists_tied (s : Script) (options : BuilderOptions) (hl : options.limits.violation? = none)
    (intent : Intent) {drawn : Intent} (hd : drawn ≠ .oplist) :
    ∃ appended, Builder.Tied options.limits appended (s.listFor intent { options with intent := drawn } (.record []))
        (s.listFor intent { options with intent := .oplist } (.record [])) ∧
      bare appended = (s.edits intent).flatMap Call.bare := by
  have htied := (Builder.tied_create options hd).effects (Limits.violation?_eq_none_iff.1 hl)
    (s.edits intent ++ [.flush true])
  rw [List.foldl_append, List.foldl_append] at htied
  refine ⟨_, htied, ?_⟩
  rw [List.nil_append, Builder.bare_events]
  simp [Call.bare]

theorem Script.bare_listFor (hs : s.IsPlain) (options : BuilderOptions) (hl : options.limits.violation? = none)
    (intent : Intent) :
    bare ((s.listFor intent { options with intent := .oplist } (.record [])).delivered.flatMap (·.columns.toList)) =
      s.stream intent := by
  obtain ⟨appended, htied, happended⟩ := s.lists_tied options hl intent (show Intent.display ≠ .oplist by decide)
  have horder := htied.lockstep.order
  rw [listFor, Builder.queue_flushed (Builder.isSome_sink_calls rfl _)] at horder
  rw [← flatMap_bare_edits hs, ← happended, ← horder]
  simp [listFor, Columns.toList]

theorem Script.onlyFor_edits (s : Script) (intent : Intent) : (s.onlyFor intent).edits .oplist = s.edits intent := by
  have hviewable (x : Annot × List Addition) : Annot.isRenderedFor { x.1 with flags := ⟨0⟩ } .oplist := by
    simp [Annot.isRenderedFor, Annot.isViewable, Annot.isInvisible, AnnotFlags.contains]
  have hdrawn : (s.onlyFor intent).drawn .oplist = (s.onlyFor intent).annots := by
    rw [drawn, List.filter_eq_self]
    intro y hy
    obtain ⟨x, -, rfl⟩ := List.mem_map.1 hy
    exact hviewable x
  rw [edits, annotCalls, hdrawn, onlyFor, List.map_map]
  rfl

theorem Page.Follows.onlyFor (h : p.Follows s) (intent : Intent) : (p.onlyFor intent).Follows (s.onlyFor intent) := by
  refine ⟨h.content, ?_, ?_⟩
  · simp only [Page.onlyFor, Script.onlyFor, Script.drawn, h.annots, List.filter_map, List.map_map]
    rfl
  · simp only [Script.onlyFor, List.mem_map]
    rintro _ ⟨x, hx, rfl⟩ look hlook
    exact h.appearances x (List.mem_of_mem_filter hx) look hlook

theorem Page.Follows.chunks_eq (h : p.Follows s) (hw : w.isTerminated = false) (ho : o.limits.violation? = none) :
    (p.render (.record []) o w).chunks = (s.list (p.listOptions o) (.record [])).delivered := by
  obtain ⟨-, hsink⟩ := h.render hw ho (.record [])
  rw [Rendering.chunks, hsink, Builder.delivered]
  cases (s.list (p.listOptions o) (.record [])).sink <;> rfl

theorem Page.Follows.raw_eq (h : p.Follows s) (hw : w.isTerminated = false) (ho : o.limits.violation? = none) :
    ((p.onlyFor o.intent).render (.record []) { o with intent := .oplist } w).chunks =
      (s.listFor o.intent { p.listOptions o with intent := .oplist } (.record [])).delivered := by
  rw [(h.onlyFor o.intent).chunks_eq (o := { o with intent := .oplist }) hw ho, Script.list]
  simp only [Page.listOptions, Script.listFor, Script.onlyFor_edits]
  rfl

end Lists

/-- What is certain of the chunks of a page, and of those of the same page as a plain list. -/
structure IsInOrder (s : Script) (o : RenderOptions) (chunks raw : List Chunk) : Prop where
  order : bare (raw.flatMap (·.columns.toList)) = s.stream o.intent
  asked : o.intent = .oplist → chunks = raw
  drawn : o.intent ≠ .oplist → List.Forall₂ (fun chunk plain ↦ Counterparts o.limits chunk plain ∧
    KeepsMarkers o.limits plain.columns.toList chunk.columns.toList) chunks raw

/-- A page delivers its content and then its annotations, and each chunk is what comes of that when it is drawn. -/
theorem Page.render_in_order {p : Page} {s : Script} (h : p.Follows s) (hs : s.IsPlain) {o : RenderOptions}
    (ho : o.limits.violation? = none) {w : Worker} (hw : w.isTerminated = false) :
    let r := p.render (.record []) o w
    let raw := (p.onlyFor o.intent).render (.record []) { o with intent := .oplist } w
    (∃ total, r.outcome = .ok total) ∧ (∃ total, raw.outcome = .ok total) ∧ IsInOrder s o r.chunks raw.chunks ∧
      (o.intent ≠ .print → raw.chunks = (p.render (.record []) { o with intent := .oplist } w).chunks) := by
  have hraw := (h.onlyFor o.intent).render (o := { o with intent := .oplist }) hw ho (.record [])
  refine ⟨⟨_, (h.render hw ho _).1⟩, ⟨_, hraw.1⟩, ⟨?_, ?_, ?_⟩, ?_⟩
  · rw [h.raw_eq hw ho]
    exact s.bare_listFor hs (p.listOptions o) ho o.intent
  · intro hintent
    rw [h.raw_eq hw ho, h.chunks_eq hw ho, Script.list, ← hintent]
    rfl
  · intro hintent
    rw [h.raw_eq hw ho, h.chunks_eq hw ho]
    obtain ⟨_, htied, -⟩ := s.lists_tied (p.listOptions o) ho o.intent hintent
    exact htied.lockstep.chunks.imp fun _ _ hc ↦ ⟨hc, hc.keepsMarkers ho⟩
  · intro hintent
    have hedits : s.edits o.intent = s.edits .oplist := by
      cases hi : o.intent with
      | print => exact absurd hi hintent
      | display | oplist => rfl
    rw [h.raw_eq hw ho, h.chunks_eq (o := { o with intent := .oplist }) hw ho, Script.listFor, hedits]
    rfl

section Captioned

def caption : List Passage :=
  [⟨[.dependency "font", .instruction ⟨.beginText, []⟩], true⟩, ⟨[.instruction ⟨.endText, []⟩], false⟩,
    ⟨[.instruction ⟨.save, []⟩], true⟩]

def captionAnnot (flags : UInt32) : Annot where
  rect := .unit
  flags := ⟨flags⟩
  appearance := some { content := { steps := caption.map Passage.step } }

def captionedPage : Page where
  index := 0
  content := { steps :=
    [fun r ↦ ({ r with list := (r.list.addDependencies ["font", "image"]).add .paintImage [] }, .more)] }
  annots := [captionAnnot 0, captionAnnot AnnotFlags.hidden, { captionAnnot 0 with appearance := none }]

def captionedScript : Script where
  content := [.dependency "font", .dependency "image", .instruction ⟨.paintImage, []⟩]
  annots := [(captionAnnot 0, Passage.joined caption), (captionAnnot AnnotFlags.hidden, Passage.joined caption),
    ({ captionAnnot 0 with appearance := none }, [])]

theorem captionedPage_follows : captionedPage.Follows captionedScript := by
  refine ⟨⟨[⟨captionedScript.content, true⟩], .cons ⟨fun r ↦ ?_, fun _ ↦ rfl, fun _ _ h ↦ h⟩ .nil, rfl⟩, rfl, ?_⟩
  · exact congrArg (Builder.add · .paintImage []) (Addition.foldl_dependencies r.list ["font", "image"]).symm
  · intro x hx look hlook
    simp only [captionedScript, List.mem_cons, List.not_mem_nil, or_false] at hx
    obtain rfl | rfl | rfl := hx
    · obtain rfl := Option.some.inj hlook
      exact Content.appends_passages caption
    · obtain rfl := Option.some.inj hlook
      exact Content.appends_passages caption
    · cases hlook

theorem captionedScript_isPlain : captionedScript.IsPlain := ⟨by decide, by decide⟩

theorem Page.render_in_order_captioned :
    captionedPage.Follows captionedScript ∧ captionedScript.IsPlain ∧ ({} : Limits).violation? = none ∧
      ({} : Worker).isTerminated = false ∧ IsInOrder captionedScript { chunking := ⟨5, 0⟩ }
        (captionedPage.render (.record []) { chunking := ⟨5, 0⟩ } {}).chunks
        ((captionedPage.onlyFor .display).render (.record []) { intent := .oplist, chunking := ⟨5, 0⟩ } {}).chunks :=
  ⟨captionedPage_follows, captionedScript_isPlain, by decide, rfl,
    (Page.render_in_order captionedPage_follows captionedScript_isPlain (o := { chunking := ⟨5, 0⟩ }) (w := {})
      (by decide) rfl).2.2.1⟩

example : (captionedScript.stream .display).map (·.tag) =
    [.paintImage, .beginAnnots, .beginAnnot, .beginText, .endText, .endAnnot, .endAnnots] := by
  rfl

end Captioned

end DisplayList
