import CodeTools.MFile.Calls

/-!
# Writes that fail

A write adds its length to the size before it asks for blocks, and does not take
it back when it gets none.
-/

namespace code_tools.mfile

open cmem machine

/-- What a caller can see of what is stored is as before. -/
structure Unchanged (h h' : MFile) : Prop where
  content : content h' = content h
  msize : msize h' = msize h
  new_header_size : mfile_new_header_size h' = mfile_new_header_size h
  block_num : h'.block_num = h.block_num

theorem mwrite_atomic_iff {alloc : Alloc} {h : MFile} (hsound : Sound h) (hsize : 0 < h.DATA_BLOCK_SIZE)
    {data : List UInt8} {len : Int} (hdata : len ≤ data.length) :
    (∀ h', mwrite alloc h data len = .ok (h', -1) → Unchanged h h') ↔ Supplied alloc h len.toNat := by
  obtain ⟨h₁, rc, count, hwrite, hwrote, _⟩ := mwrite_wrote alloc hsound hsize hdata
  constructor
  · intro hatomic
    by_contra hnot
    obtain ⟨rfl, hshort⟩ := hwrote.short hnot
    have hkept := (hatomic h₁ hwrite).msize
    have htotal : msize h₁ = h.total_size + len := hwrote.untouched.total_size
    have hbefore : msize h = h.total_size := rfl
    omega
  · intro hsupplied h' hfail
    obtain ⟨rfl, _⟩ := hwrote.done hsupplied
    obtain ⟨_, hrc⟩ := ok_inj hwrite hfail
    cases hrc

theorem mwrite_head_atomic_iff {alloc : Alloc} {h : MFile} (hsound : Sound h) {data : List UInt8} {len : Int}
    (hdata : len ≤ data.length) :
    (∀ h', mwrite_head alloc h data len = .ok (h', -1) → Unchanged h h') ↔
      h.DATA_BLOCK_SIZE < len ∨ len = 0 ∨ Granted alloc h.allocs := by
  by_cases hlong : (h.DATA_BLOCK_SIZE : Int) < len
  · refine iff_of_true (fun h' hfail => ?_) (Or.inl hlong)
    rw [mwrite_head_too_long hlong] at hfail
    cases hfail
    exact ⟨rfl, rfl, rfl, rfl⟩
  by_cases hgranted : Granted alloc h.allocs
  · refine iff_of_true (fun h' hfail => ?_) (Or.inr (Or.inr hgranted))
    by_cases hneg : len < 0
    · rw [mwrite_head_negative hgranted hneg] at hfail
      cases hfail
    · obtain ⟨n, rfl⟩ := Int.eq_ofNat_of_zero_le (by omega : 0 ≤ len)
      obtain ⟨h₁, _, hwrite, _⟩ :=
        mwrite_head_granted hsound hgranted (by omega) (by omega : n ≤ data.length)
      obtain ⟨_, hrc⟩ := ok_inj hwrite hfail
      cases hrc
  obtain ⟨h₁, hwrite, _, hhead, htotal, hheads, hblocks, _⟩ :=
    mwrite_head_refused data hsound hgranted (by omega : len ≤ h.DATA_BLOCK_SIZE)
  constructor
  · intro hatomic
    have hkept : h₁.total_size = h.total_size := (hatomic h₁ hwrite).msize
    exact Or.inr (Or.inl (by omega))
  · rintro (hlong' | rfl | hgranted') h' hfail
    · exact absurd hlong' hlong
    · obtain ⟨rfl, _⟩ := ok_inj hwrite hfail
      refine ⟨?_, htotal.trans (Int.add_zero _), hheads, hblocks⟩
      rw [content, hhead]
      rfl
    · exact absurd hgranted' hgranted

/-- On every handle that calls lead to, with any allocator: a failed `mwrite`
    leaves everything as it was if and only if it does not fail, and a failed
    `mwrite_head` if and only if it was too long or of length 0. -/
theorem failed_writes_atomic_iff {alloc : Alloc} {size : Nat} (hsize : 1 ≤ size) {af fe : Bool} {h h' : MFile}
    (hopen : mopen alloc size af fe = .ok (some h)) {calls : List Call} {replies : List Reply}
    (hcovered : ∀ call ∈ calls, call.Covered) (hrun : run (perform alloc) h calls = .ok (h', replies))
    {data : List UInt8} {len : Int} (hdata : len ≤ data.length) :
    ((∀ h'', mwrite alloc h' data len = .ok (h'', -1) → Unchanged h' h'') ↔ Supplied alloc h' len.toNat) ∧
      ((∀ h'', mwrite_head alloc h' data len = .ok (h'', -1) → Unchanged h' h'') ↔
        size < len ∨ len = 0 ∨ Granted alloc h'.allocs) := by
  obtain ⟨hsound, hblock⟩ := sound_along_run hsize hopen hcovered hrun
  refine ⟨mwrite_atomic_iff hsound (by omega) hdata, ?_⟩
  rw [← hblock]
  exact mwrite_head_atomic_iff hsound hdata

/-- An allocator whose calls from a number on fail. -/
def limited (n : Nat) : Alloc := fun k => if k < n then some fun _ => 0 else none

/-- After the three calls for the handle and one block, a byte still fits. -/
theorem failed_writes_atomic_fits :
    ∃ h' replies, run (perform (limited 3)) (new_handle 2 true) [.op (.mwrite [1] 1)] = .ok (h', replies) ∧
      ∀ h'', mwrite (limited 3) h' [2] 1 = .ok (h'', -1) → Unchanged h' h'' := by
  obtain ⟨h', replies, hrun, hsupplied⟩ := run_of_view (fun h : MFile => decide (Supplied (limited 3) h 1))
    (by decide +kernel : (run (perform (limited 3)) (new_handle 2 true) [.op (.mwrite [1] 1)]).toOption.map
      (fun r => decide (Supplied (limited 3) r.1 1)) = some true)
  have hatomic := (failed_writes_atomic_iff (by decide)
    (rfl : mopen (limited 3) 2 true true = .ok (some (new_handle 2 true))) (by decide) hrun
    (by decide : (1 : Int) ≤ ([2] : List UInt8).length)).1.mpr (of_decide_eq_true hsupplied)
  exact ⟨h', replies, hrun, hatomic⟩

/-- The block for the second half is refused: the write fails, and the size says
    4 where 2 bytes are stored. -/
theorem failed_write_keeps_size :
    ∃ h', mwrite (limited 3) (new_handle 2 true) [1, 2, 3, 4] 4 = .ok (h', -1) ∧ msize h' = 4 ∧
      content h' = [1, 2] ∧ ¬Unchanged (new_handle 2 true) h' := by
  obtain ⟨⟨h', rc⟩, hwrite, hview⟩ := eq_ok_of_view (fun r : MFile × Int => (r.2, msize r.1, content r.1))
    (by decide +kernel : (mwrite (limited 3) (new_handle 2 true) [1, 2, 3, 4] 4).toOption.map
      (fun r => (r.2, msize r.1, content r.1)) = some (-1, 4, [1, 2]))
  obtain ⟨rfl, hsize, hcontent⟩ := by simpa only [Prod.mk.injEq] using hview
  refine ⟨h', hwrite, hsize, hcontent, fun hkept => ?_⟩
  have hzero := hkept.msize
  rw [hsize] at hzero
  cases hzero

end code_tools.mfile
