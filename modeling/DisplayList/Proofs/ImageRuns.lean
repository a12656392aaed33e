import DisplayList.Proofs.Batching

namespace DisplayList

open Columns (ofList)

namespace Pattern

variable {l : Limits} {q : List Instruction} {first stop n : Nat}

section Images

theorem IsRun.images_alike (h : images.IsRun q first stop) (hn : first + 4 * (n + 1) ≤ stop) {g : Quartet}
    (hg : g ∈ quartets q (first + 4) n) :
    sameScale (Quartet.ofIndex q first).transform g.transform ∧
      sameSubject (Quartet.ofIndex q first).paint g.paint := by
  obtain ⟨k, hk, rfl⟩ := mem_quartets.1 hg
  have hi (o : Nat) (ho : o < 4) := h.agrees (first + 4 * (k + 1) + o) (by change first + 4 ≤ _; omega) (by omega)
  have hscale := hi 1 (by omega)
  have hsubject := hi 2 (by omega)
  have h₁ : (first + 4 * (k + 1) + 1 - first) % images.period = 1 := offset_eq images (by decide) first (k + 1)
  have h₂ : (first + 4 * (k + 1) + 2 - first) % images.period = 2 := offset_eq images (by decide) first (k + 1)
  have he : first + 4 * (k + 1) = first + 4 + 4 * k := by omega
  unfold Pattern.agrees at hscale hsubject
  rw [h₁, he] at hscale
  rw [h₂, he] at hsubject
  exact ⟨hscale, hsubject⟩

theorem batchImages_short (h : images.IsRun q first stop) (hn : min ((stop - first) / 4) l.maxImages < l.minImages) :
    batchImages l (ofList q) first stop = .ok ⟨ofList q, stop - (stop - first) % images.period⟩ := by
  have hle : first ≤ stop := (Nat.le_add_right _ _).trans h.whole
  rw [batchImages, distance_ok hle, ok_bind, if_pos hn, leave_eq _ hle]

theorem batchImages_eq (h : images.IsRun q first stop) (hn : n + 1 = min ((stop - first) / 4) l.maxImages)
    (hl : l.minImages ≤ n + 1) :
    batchImages l (ofList q) first stop =
      .ok ⟨ofList (q.take first ++
        [⟨.paintImageRepeat, (Quartet.ofIndex q first).repeated (quartets q (first + 4) n)⟩] ++
        q.drop (first + 4 * (n + 1))), first + 1⟩ := by
  have hle : first ≤ stop := (Nat.le_add_right _ _).trans h.whole
  have hq := h.within
  have hfit : first + 4 * (n + 1) ≤ q.length := by omega
  rw [batchImages, distance_ok hle, ok_bind, ← hn, if_neg (by omega), transforms_eq hfit, ok_bind,
    argsAt_eq (by omega), ok_bind, quartets_succ, collapse_eq hfit]
  rw [← repeatArgs_eq]
  rfl

theorem batchImages_gives (hl : l.Valid) (h : images.IsRun q first stop) :
    ∃ b start next form, batchImages l (ofList q) first stop = .ok b ∧ Gives l q first stop b start next form := by
  by_cases hn : min ((stop - first) / 4) l.maxImages < l.minImages
  · exact ⟨_, _, _, _, batchImages_short h hn, gives_leave l h.whole h.within⟩
  · obtain ⟨n, hn'⟩ := Nat.exists_eq_add_one.2 (show 0 < min ((stop - first) / 4) l.maxImages by
      have := hl.images; omega)
    refine ⟨_, _, _, _, batchImages_eq h hn'.symm (by omega), gives_collapse rfl h n.succ_pos (by omega) ?_⟩
    rw [quartets_succ]
    have halike := fun g hg ↦ h.images_alike (n := n) (g := g) (by omega) hg
    refine .of_rewrite hl (.imageRepeat _ _ ?_ ?_ h.opens (fun g hg ↦ (halike g hg).1) fun g hg ↦ (halike g hg).2)
    · rw [List.length_cons, length_quartets]; omega
    · rw [List.length_cons, length_quartets]; omega

end Images

section InlineImages

theorem IsRun.inlineImages_packable (h : inlineImages.IsRun q first stop) (hn : first + 4 * n ≤ stop) {g : Quartet}
    (hg : g ∈ quartets q first n) : paintsPackable g.paint := by
  obtain ⟨k, hk, rfl⟩ := mem_quartets.1 hg
  cases k with
  | zero => exact h.opens
  | succ k =>
    have hi := h.agrees (first + 4 * (k + 1) + 2) (by change first + 4 ≤ _; omega) (by omega)
    have ho : (first + 4 * (k + 1) + 2 - first) % inlineImages.period = 2 :=
      offset_eq inlineImages (by decide) first (k + 1)
    unfold Pattern.agrees at hi
    rwa [ho] at hi

theorem images_of_packable (paints : List (List Arg)) (h : ∀ paint ∈ paints, paintsPackable paint) :
    ∃ images, paints.mapM firstImage? = some images ∧ paints.map firstImage? = images.map some ∧
      ∀ r ∈ images, r.image.isPackable := by
  have hsome (paint : List Arg) (hp : paint ∈ paints) : ∃ r, firstImage? paint = some r ∧ r.image.isPackable := by
    have := h paint hp
    rw [paintsPackable, Option.any_eq_true] at this
    exact this
  obtain ⟨-, paint, hp, hnone⟩ | ⟨images, him, hmap⟩ := mapM_firstImage? paints
  · obtain ⟨r, hr, -⟩ := hsome paint hp
    rw [hnone] at hr
    cases hr
  · refine ⟨images, him, hmap, fun r hr ↦ ?_⟩
    have hmem : some r ∈ paints.map firstImage? := by rw [hmap]; exact List.mem_map_of_mem hr
    obtain ⟨paint, hp, he⟩ := List.mem_map.1 hmem
    obtain ⟨r', hr', hpack⟩ := hsome paint hp
    obtain rfl : r' = r := by rw [hr'] at he; exact Option.some.inj he
    exact hpack

theorem batchInlineImages_short (h : inlineImages.IsRun q first stop)
    (hn : min ((stop - first) / 4) l.maxInlineImages < l.minInlineImages) :
    batchInlineImages l (ofList q) first stop = .ok ⟨ofList q, stop - (stop - first) % inlineImages.period⟩ := by
  have hle : first ≤ stop := (Nat.le_add_right _ _).trans h.whole
  rw [batchInlineImages, distance_ok hle, ok_bind, if_pos hn, leave_eq _ hle]

theorem batchInlineImages_eq (h : inlineImages.IsRun q first stop)
    (hn : n = min ((stop - first) / 4) l.maxInlineImages) (hl : l.minInlineImages ≤ n) :
    ∃ images atlas, (quartets q first n).map (fun g ↦ firstImage? g.paint) = images.map some ∧
      (∀ r ∈ images, r.image.isPackable) ∧
      Atlas.pack ((quartets q first n).zipWith (fun g r ↦ ⟨g.transform, r.image⟩) images) l.maxAtlasWidth
        l.atlasPadding = .ok atlas ∧
      batchInlineImages l (ofList q) first stop =
        .ok ⟨ofList (q.take first ++
          [⟨.paintInlineImageGroup, [.image ⟨none, atlas.image⟩, .placements atlas.placements]⟩] ++
          q.drop (first + 4 * n)), first + 1⟩ := by
  have hle : first ≤ stop := (Nat.le_add_right _ _).trans h.whole
  have hq := h.within
  have hfit : first + 4 * n ≤ q.length := by omega
  obtain ⟨images, him, hmap, hpackable⟩ := images_of_packable ((quartets q first n).map (·.paint))
    fun paint hp ↦ by
      obtain ⟨g, hg, rfl⟩ := List.mem_map.1 hp
      exact h.inlineImages_packable (by omega) hg
  obtain ⟨atlas, ha⟩ := Atlas.pack_ok ((quartets q first n).zipWith (fun g r ↦ ⟨g.transform, r.image⟩) images)
    (fun item hitem ↦ by
      rw [← List.map_uncurry_zip_eq_zipWith] at hitem
      obtain ⟨⟨g, r⟩, hgr, rfl⟩ := List.mem_map.1 hitem
      exact hpackable r (List.of_mem_zip hgr).2) l.maxAtlasWidth l.atlasPadding
  refine ⟨images, atlas, by rw [← hmap, List.map_map]; rfl, hpackable, ha, ?_⟩
  rw [batchInlineImages, distance_ok hle, ok_bind, ← hn, if_neg (by omega), transforms_eq hfit, ok_bind,
    paints_eq hfit, ok_bind, him]
  dsimp only
  rw [List.zipWith_map_left, ha, ok_bind, collapse_eq hfit]

theorem batchInlineImages_gives (hl : l.Valid) (h : inlineImages.IsRun q first stop) :
    ∃ b start next form, batchInlineImages l (ofList q) first stop = .ok b ∧
      Gives l q first stop b start next form := by
  by_cases hn : min ((stop - first) / 4) l.maxInlineImages < l.minInlineImages
  · exact ⟨_, _, _, _, batchInlineImages_short h hn, gives_leave l h.whole h.within⟩
  · obtain ⟨images, atlas, hpaints, hpackable, hpacked, he⟩ := batchInlineImages_eq h rfl (Nat.not_lt.1 hn)
    have := hl.inlineImages
    refine ⟨_, _, _, _, he, gives_collapse rfl h (by omega) (by omega) ?_⟩
    refine .of_rewrite hl (.inlineGroup _ images atlas ?_ ?_ hpaints hpackable hpacked)
    · rw [length_quartets]; omega
    · rw [length_quartets]; omega

end InlineImages

end Pattern

end DisplayList
