import EnhancedLetIndex.Engine.Merge

/-!
# Merges that return

A merge that returns has gone through all of `MergeSteps`, also in states in which blocks have
been relocated or are listed by several levels: the slots of its output were free, or the mapping
would have refused them, and the blocks of both inputs were mapped, or `retire_level` would have
failed.
-/

namespace EnhancedLetIndex

variable {V : Type}

namespace Engine

variable {e e' : Engine V} {l newer older : LevelId} {L : Level}

/-! ## What has been needed -/

/-- `create_block` in a level has found a free slot. -/
theorem createBlock_eq_ok (h : e.Coherent) {records : List (Record V)} {b : BlockId}
    (hrun : (createBlock records (some l)).run e = .ok b e') :
    (⟨e.storage.nextFreeSlot⟩ : SlotId) ∉ e.storage.slots ∧ e'.Coherent ∧
      e'.storage.nextFreeSlot = e.storage.nextFreeSlot + 1 ∧
      ∀ s ∈ e.storage.slots, s ∈ e'.storage.slots := by
  obtain ⟨err, -, hcase⟩ | ⟨blk, owner, -, -, hcase⟩ | ⟨blk, -, hfree, hcase⟩ :=
    createBlock_cases h records (some l)
  · cases hcase.symm.trans hrun
  · cases hcase.symm.trans hrun
  · obtain ⟨u, e₁, hadd, hpure⟩ := run_bind_eq_ok.mp (hcase.symm.trans hrun)
    cases hpure
    obtain ⟨M, M', -, -, -, hattach⟩ | ⟨-, err, hattach⟩ :=
      addBlockToLevel_cases l ⟨e.nextBlockId⟩ (e.put blk)
    · cases hattach.symm.trans hadd
      exact ⟨hfree, (h.put hfree).attach l M', rfl, fun s hs ↦ Finmap.mem_insert.mpr (Or.inr hs)⟩
    · cases hattach.symm.trans hadd

/-- The slots of blocks that have been created were free. -/
theorem free_of_createBlocks {faults : FaultPlan} {k : Nat} {parts : List (List (Record V))}
    (h : e.Coherent) (hrun : (createBlocks faults l k parts).run e = .ok () e') :
    ∀ s ∈ e.storage.slots, ¬ InNext e.storage.nextFreeSlot parts.length s.value := by
  induction parts generalizing e k with
  | nil =>
    intro s _ hnext
    have := hnext.1
    have := hnext.2
    simp only [List.length_nil] at *
    omega
  | cons p ps ih =>
    rw [createBlocks] at hrun
    by_cases hfault : faults.createBlock k = true
    · rw [if_pos hfault] at hrun
      cases hrun
    rw [if_neg hfault] at hrun
    obtain ⟨b, e₁, hcreate, hrest⟩ := (run_bind_eq_ok (x := createBlock p (some l))).mp hrun
    obtain ⟨hfree, h₁, hnext₁, hslots⟩ := createBlock_eq_ok h hcreate
    intro s hs hnext
    rw [List.length_cons, Nat.add_comm] at hnext
    rcases inNext_add.mp hnext with hnext | hnext
    · rw [inNext_one] at hnext
      exact hfree (hnext ▸ hs)
    · refine ih h₁ hrest s (hslots s hs) ?_
      rw [hnext₁]
      exact hnext

/-- Blocks that have been retired were mapped. -/
theorem mapped_of_retireBlocks {bs : List BlockId} (h : e.Coherent)
    (hrun : (retireBlocks bs).run e = .ok () e') : ∀ b ∈ bs, b ∈ e.mapping.logicalToPhysical := by
  induction bs generalizing e with
  | nil => exact fun b hb ↦ absurd hb List.not_mem_nil
  | cons b bs ih =>
    by_cases hb : b ∈ e.mapping.logicalToPhysical
    · obtain ⟨s, hs⟩ := Finmap.mem_iff.mp hb
      rw [run_retireBlocks_cons h hs] at hrun
      intro b' hb'
      rcases List.mem_cons.mp hb' with rfl | hb'
      · exact hb
      · exact (Finmap.mem_erase.mp (ih (h.drop hs) hrun b' hb')).2
    · rw [run_retireBlocks_of_unmapped hb] at hrun
      cases hrun

/-- A level that has been retired was active, and its blocks are gone. -/
theorem retireLevel_eq_ok (h : e.Coherent) {k : Nat}
    (hrun : (retireLevel l).run e = .ok k e') :
    ∃ L e₁, e.levels.lookup l = some L ∧ Dropped e e₁ L.blockIds ∧ e' = e₁.forget l := by
  obtain ⟨L, e₁, hlevel, hrest⟩ := run_bind_eq_ok.mp hrun
  obtain ⟨hret, hL, rfl⟩ := level_eq_ok.mp hlevel
  obtain ⟨u, e₂, hblocks, -⟩ := run_bind_eq_ok.mp hrest
  obtain ⟨e₃, hd, hspec⟩ := retireLevel_spec h hL hret (mapped_of_retireBlocks h hblocks)
  cases hspec.symm.trans hrun
  exact ⟨L, e₃, hL, hd, rfl⟩

/-- An output that has been published was built into free slots. -/
theorem free_of_publishOutput {faults : FaultPlan} {merged : List (Record V)} (h : e.Coherent)
    (hsorted : SortedBy (·.key) merged)
    (hrun : (publishOutput faults merged l).run e = .ok () e') :
    ∀ s ∈ e.storage.slots,
      ¬ InNext e.storage.nextFreeSlot (chunks e.config.blockCapacity merged).length s.value := by
  obtain ⟨l', e₁, hbuild, -⟩ := run_bind_eq_ok.mp hrun
  have hstart : (buildLevelWith faults merged (some l)).run e =
      (createBlocks faults l 0 (chunks e.config.blockCapacity merged) >>= fun _ ↦ pure l).run e := by
    rw [buildLevelWith, fromRecords_of_sorted hsorted]
    rfl
  obtain ⟨u, e₂, hblocks, -⟩ := run_bind_eq_ok.mp (hstart.symm.trans hbuild)
  exact free_of_createBlocks h hblocks

/-! ## The steps of a merge that returns -/

/-- The second half of a merge that returns. -/
theorem Consistent.finishMerge_returned (h : e.Consistent) {faults : FaultPlan} {n o : Level}
    {r : MergeResult} (hne : newer ≠ older) (hn : e.levels.lookup newer = some n)
    (ho : e.levels.lookup older = some o) (hnsorted : SortedBy (·.key) (e.recordsOf newer))
    (hosorted : SortedBy (·.key) (e.recordsOf older)) {xs : List SlotId}
    (hxs : xs = e.slotsOf n.blockIds ++ e.slotsOf o.blockIds)
    (hrun : (finishMerge faults newer older (e.recordsOf newer) (e.recordsOf older)).run
      (e.afterReads xs) = .ok r e') :
    ∃ e₂ e₄ e₅ blks idx, MergeSteps e newer older n o e₂ e₄ e₅ blks idx ∧
      r = e.mergeResult newer older ∧ e' = e₅.forget older := by
  have hc₁ : (e.afterReads xs).Coherent := h.toCoherent.afterReads xs
  have hfresh : (⟨e.nextLevelId⟩ : LevelId) ∉ e.levels := fun hmem ↦
    lt_irrefl _ (h.levels_lt _ hmem)
  have hret : (⟨e.nextLevelId⟩ : LevelId) ∉ e.retiredLevelIds := fun hmem ↦
    lt_irrefl _ (h.retired_lt _ hmem)
  have hsorted : SortedBy (·.key) (e.mergedRecords newer older) :=
    sortedBy_unionNewer hnsorted hosorted
  have hcreate : createLevel.run (e.afterReads xs) =
      .ok ⟨e.nextLevelId⟩ (e.afterReads xs).withNewLevel := rfl
  rw [finishMerge, mergeSorted_recordsOf hnsorted hosorted] at hrun
  simp only at hrun
  rw [run_bind_of_ok hcreate] at hrun
  obtain ⟨u, e₃, htry, hrun₁⟩ := run_bind_eq_ok.mp hrun
  -- the handler raises, so the output has been published
  have hpublish : (publishOutput faults (e.mergedRecords newer older) ⟨e.nextLevelId⟩).run
      (e.afterReads xs).withNewLevel = .ok () e₃ := by
    cases hcase : (publishOutput faults (e.mergedRecords newer older) ⟨e.nextLevelId⟩).run
        (e.afterReads xs).withNewLevel with
    | ok a t =>
      rw [run_tryCatch_of_ok hcase] at htry
      exact htry
    | error err t =>
      rw [run_tryCatch_of_error hcase] at htry
      obtain ⟨_, _, -, hthrow⟩ := run_bind_eq_ok.mp htry
      cases hthrow
  have hfree := free_of_publishOutput hc₁.withNewLevel hsorted hpublish
  obtain ⟨e₂, blks, hc, ⟨hrecs, -, -, ε, idx, hε, hidx, hpub⟩ | ⟨-, err, ys, hpub⟩⟩ :=
    hc₁.run_publishOutput faults hret hsorted hfree
  · cases hpublish.symm.trans hpub
    have hcoherent : ((e₂.afterReads (e₂.slotsOf (e.newBlockIds blks.length))).setPgm
        ⟨e.nextLevelId⟩ idx).Coherent := (hc.coherent.afterReads _).of_eq rfl rfl le_rfl
    obtain ⟨k, e₆, hretire, hrun₂⟩ := run_bind_eq_ok.mp hrun₁
    obtain ⟨n', e₄, hn', hd₄, rfl⟩ := retireLevel_eq_ok hcoherent hretire
    cases (hc.lookup_old hfresh hn).symm.trans hn'
    obtain ⟨k', e₆, hretire', hpure⟩ := run_bind_eq_ok.mp hrun₂
    have hcoherent₄ : (e₄.forget newer).Coherent := hd₄.coherent.of_eq rfl rfl le_rfl
    obtain ⟨o', e₅, ho', hd₅, rfl⟩ := retireLevel_eq_ok hcoherent₄ hretire'
    have ho₄ := (hd₄.lookup_forget hne.symm).trans (hc.lookup_old hfresh ho)
    cases ho₄.symm.trans ho'
    cases hpure
    exact ⟨e₂, e₄, e₅, blks, idx, ⟨hn, ho, hxs ▸ hc, hrecs, ⟨ε, hε, hidx⟩, hd₄, hd₅⟩, rfl, rfl⟩
  · cases hpublish.symm.trans hpub

/-- A merge that returns has read two different canonical levels and gone through all its
steps. -/
theorem Consistent.mergeBlockingWith_returned (h : e.Consistent) {faults : FaultPlan}
    {r : MergeResult} (hrun : (mergeBlockingWith faults newer older).run e = .ok r e') :
    ∃ n o e₂ e₄ e₅ blks idx, newer ≠ older ∧ MergeSteps e newer older n o e₂ e₄ e₅ blks idx ∧
      (∀ b ∈ n.blockIds, b ∈ e.mapping.logicalToPhysical) ∧
      (∀ b ∈ o.blockIds, b ∈ e.mapping.logicalToPhysical) ∧
      r = e.mergeResult newer older ∧ e' = e₅.forget older := by
  have hne : newer ≠ older := by
    rintro rfl
    rw [run_mergeBlockingWith_same] at hrun
    cases hrun
  rw [run_mergeBlockingWith_of_ne faults hne] at hrun
  obtain ⟨n, e₀, hnlevel, hrun₁⟩ := run_bind_eq_ok.mp hrun
  obtain ⟨hnret, hn, he₀⟩ := level_eq_ok.mp hnlevel
  rw [he₀] at hrun₁
  obtain ⟨o, e₀, holevel, hrun₂⟩ := run_bind_eq_ok.mp hrun₁
  obtain ⟨horet, ho, he₀⟩ := level_eq_ok.mp holevel
  rw [he₀] at hrun₂
  obtain ⟨newerRecords, e₁, hnread, hrun₃⟩ := run_bind_eq_ok.mp hrun₂
  obtain ⟨nblks, hnblks, hncanon, rfl, rfl⟩ := readLevelRecords_eq_ok.mp hnread
  obtain ⟨olderRecords, e₁, horead, hrun₄⟩ := run_bind_eq_ok.mp hrun₃
  obtain ⟨oblks, hoblks, hocanon, rfl, rfl⟩ := readLevelRecords_eq_ok.mp horead
  rw [afterReads_readAs] at hoblks
  rw [← recordsOf_eq hn hnblks, ← recordsOf_eq ho hoblks, afterReads_slotsOf,
    afterReads_append] at hrun₄
  have hnsorted : SortedBy (·.key) (e.recordsOf newer) := recordsOf_eq hn hnblks ▸ hncanon.sorted
  have hosorted : SortedBy (·.key) (e.recordsOf older) := recordsOf_eq ho hoblks ▸ hocanon.sorted
  obtain ⟨e₂, e₄, e₅, blks, idx, hsteps, hr, he'⟩ :=
    h.finishMerge_returned hne hn ho hnsorted hosorted rfl hrun₄
  exact ⟨n, o, e₂, e₄, e₅, blks, idx, hne, hsteps, hnblks.mapped, hoblks.mapped, hr, he'⟩

end Engine

end EnhancedLetIndex
