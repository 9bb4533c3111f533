import CodeTools.Lib.Machine
import CodeTools.MFile.Model

/-!
# What an in-memory file gives back

`mclose` gives the blocks and their buffers to `free_fun`, but the handle to
`free`, although `mopen` got it from the caller's allocator.
-/

namespace code_tools.mfile

open cmem machine

/-- Where the pointers went in the end. -/
structure Released where
  free_fun : List Nat
  free : List Nat
deriving DecidableEq, Repr

def mclose_loop : Tailq DataBlock → List Nat → List Nat
  | [], freed => freed
  | (n1, block) :: head, freed => mclose_loop head (freed ++ [block.data_p, n1])

/-- The handle came from the first call of the allocator. -/
def mclose (h : MFile) : Released := { free_fun := mclose_loop h.head h.freed, free := [0] }

/-- The pointers that the allocator returned in its first calls. -/
def obtained (alloc : Alloc) (allocs : Nat) : List Nat := (List.range allocs).filter fun n => (alloc n).isSome

/-- A pointer goes back to the caller's allocator, once, and nowhere else. -/
def Released.Properly (released : Released) (n : Nat) : Prop :=
  released.free_fun.count n = 1 ∧ n ∉ released.free

/-! ## Every pointer has its place -/

/-- The pointers that the queue keeps. -/
def kept (q : Tailq DataBlock) : List Nat := q.flatMap fun x => [x.2.data_p, x.1]

/-- The pointers that were obtained are the handle, what was freed and what is kept. -/
def Ledger (alloc : Alloc) (h : MFile) : Prop := (0 :: (h.freed ++ kept h.head)).Perm (obtained alloc h.allocs)

variable {alloc : Alloc} {h h' : MFile}

theorem kept_append (q q' : Tailq DataBlock) : kept (q ++ q') = kept q ++ kept q' := List.flatMap_append

theorem kept_cons (a : Nat) (block : DataBlock) (q : Tailq DataBlock) :
    kept ((a, block) :: q) = [block.data_p, a] ++ kept q := rfl

theorem kept_modify {q : Tailq DataBlock} {a : Nat} {f : DataBlock → DataBlock}
    (hdata_p : ∀ block, (f block).data_p = block.data_p) : kept (q.modify a f) = kept q := by
  unfold kept Tailq.modify
  rw [List.flatMap_map]
  refine congrArg (fun g => List.flatMap g q) (funext fun x => ?_)
  by_cases hx : x.1 = a <;> simp [hx, hdata_p]

theorem obtained_some {n : Nat} {junk : Nat → UInt8} (hn : alloc n = some junk) :
    obtained alloc (n + 1) = obtained alloc n ++ [n] := by
  unfold obtained
  rw [List.range_succ, List.filter_append]
  simp [hn]

theorem obtained_none {n : Nat} (hn : alloc n = none) : obtained alloc (n + 1) = obtained alloc n := by
  unfold obtained
  rw [List.range_succ, List.filter_append]
  simp [hn]

theorem mclose_loop_eq (q : Tailq DataBlock) (freed : List Nat) : mclose_loop q freed = freed ++ kept q := by
  induction q generalizing freed with
  | nil => exact (List.append_nil freed).symm
  | cons x q ih =>
    obtain ⟨a, block⟩ := x
    rw [mclose_loop, ih, kept_cons, List.append_assoc]

/-- Without a block both pointers are accounted for, with one they are to be kept. -/
theorem new_block_ledger {made : Option (Nat × DataBlock)} (hledger : Ledger alloc h)
    (hnew : new_block alloc h = (h', made)) :
    h'.head = h.head ∧ h'.current_write_p = h.current_write_p ∧
      (made = none → Ledger alloc h') ∧
      ∀ a block, made = some (a, block) →
        (0 :: (h'.freed ++ (kept h'.head ++ [block.data_p, a]))).Perm (obtained alloc h'.allocs) := by
  unfold Ledger at hledger ⊢
  unfold new_block at hnew
  cases hfirst : alloc h.allocs with
  | none =>
    simp only [hfirst] at hnew
    obtain ⟨rfl, rfl⟩ := Prod.mk.inj hnew
    refine ⟨rfl, rfl, fun _ => ?_, nofun⟩
    dsimp only
    rwa [obtained_none hfirst]
  | some junk =>
    cases hsecond : alloc (h.allocs + 1) with
    | none =>
      simp only [hfirst, hsecond] at hnew
      obtain ⟨rfl, rfl⟩ := Prod.mk.inj hnew
      refine ⟨rfl, rfl, fun _ => ?_, nofun⟩
      dsimp only
      rw [obtained_none hsecond, obtained_some hfirst]
      refine List.Perm.trans ?_ (hledger.append_right [h.allocs])
      rw [List.cons_append, List.append_assoc, List.append_assoc]
      exact (List.perm_append_comm.append_left h.freed).cons 0
    | some junk' =>
      simp only [hfirst, hsecond] at hnew
      obtain ⟨rfl, rfl⟩ := Prod.mk.inj hnew
      refine ⟨rfl, rfl, nofun, ?_⟩
      rintro a block hmade
      cases hmade
      dsimp only
      rw [obtained_some hsecond, obtained_some hfirst, List.append_assoc]
      rw [← List.append_assoc, ← List.cons_append]
      exact hledger.append (List.Perm.swap _ _ _)

theorem write_block_ledger {ready : Bool} (hledger : Ledger alloc h) (hwrite : write_block alloc h = (h', ready)) :
    Ledger alloc h' := by
  unfold write_block at hwrite
  split at hwrite
  · cases hnew : new_block alloc h with
    | mk h₁ made =>
      obtain ⟨_, _, hnone, hsome⟩ := new_block_ledger hledger hnew
      rw [hnew] at hwrite
      cases made with
      | none =>
        cases hwrite
        exact hnone rfl
      | some x =>
        obtain ⟨a, block⟩ := x
        cases hwrite
        have hperm := hsome a block rfl
        unfold Ledger
        dsimp only
        rwa [kept_append]
  · cases hwrite
    exact hledger

theorem append_bytes_ledger {data : List UInt8} {writed count : Nat} (hledger : Ledger alloc h)
    (happend : append_bytes h data writed count = .ok h') : Ledger alloc h' := by
  unfold append_bytes at happend
  obtain ⟨block, _, happend⟩ := bind_eq_ok_iff.mp happend
  obtain ⟨bytes, _, happend⟩ := bind_eq_ok_iff.mp happend
  obtain ⟨buffer, _, happend⟩ := bind_eq_ok_iff.mp happend
  cases happend
  unfold Ledger at hledger ⊢
  dsimp only
  cases h.current_write_p with
  | none => exact hledger
  | some a =>
    rw [Option.elim_some, kept_modify]
    · exact hledger
    · exact fun _ => rfl

theorem mwrite_loop_ledger {fuel writed : Nat} {data : List UInt8} {len rc : Int} (hledger : Ledger alloc h)
    (hloop : mwrite_loop alloc fuel h data len writed = .ok (h', rc)) : Ledger alloc h' := by
  induction fuel generalizing h writed with
  | zero =>
    unfold mwrite_loop at hloop
    split at hloop
    · cases hloop
    · cases hloop
      exact hledger
  | succ fuel ih =>
    unfold mwrite_loop at hloop
    split at hloop
    · cases hwrite : write_block alloc h with
      | mk h₁ ready =>
        have hledger₁ := write_block_ledger hledger hwrite
        rw [hwrite] at hloop
        cases ready with
        | false =>
          cases hloop
          exact hledger₁
        | true =>
          obtain ⟨block, _, hloop⟩ := bind_eq_ok_iff.mp hloop
          dsimp only at hloop
          split at hloop
          · obtain ⟨h₂, happend, hdone⟩ := bind_eq_ok_iff.mp hloop
            cases hdone
            exact append_bytes_ledger hledger₁ happend
          · obtain ⟨h₂, happend, hrest⟩ := bind_eq_ok_iff.mp hloop
            have hledger₂ : Ledger alloc h₂ := append_bytes_ledger hledger₁ happend
            exact @ih { h₂ with is_full := true } _ hledger₂ hrest
    · cases hloop
      exact hledger

theorem mwrite_head_ledger {data : List UInt8} {len rc : Int} (hledger : Ledger alloc h)
    (hwrite : mwrite_head alloc h data len = .ok (h', rc)) : Ledger alloc h' := by
  unfold mwrite_head at hwrite
  split at hwrite
  · cases hwrite
    exact hledger
  · cases hnew : new_block alloc { h with total_size := h.total_size + len } with
    | mk h₁ made =>
      have hopen : Ledger alloc { h with total_size := h.total_size + len } := hledger
      obtain ⟨_, _, hnone, hsome⟩ := new_block_ledger hopen hnew
      rw [hnew] at hwrite
      cases made with
      | none =>
        cases hwrite
        exact hnone rfl
      | some x =>
        obtain ⟨a, block⟩ := x
        dsimp only at hwrite
        split at hwrite
        · cases hwrite
        · obtain ⟨bytes, _, hwrite⟩ := bind_eq_ok_iff.mp hwrite
          obtain ⟨buffer, _, hwrite⟩ := bind_eq_ok_iff.mp hwrite
          cases hwrite
          have hperm := hsome a block rfl
          unfold Ledger
          dsimp only
          rw [kept_cons]
          exact ((List.perm_append_comm.append_left h₁.freed).cons 0).trans hperm

/-! ## Runs of writes -/

/-- `mwrite` or `mwrite_head`. -/
def Op.writes : Op → Bool
  | .mwrite _ _ | .mwrite_head _ _ => true
  | _ => false

theorem exec_ledger {op : Op} {outcome : Outcome} (hledger : Ledger alloc h) (hwrites : op.writes = true)
    (hexec : exec alloc h op = .ok (h', outcome)) : Ledger alloc h' := by
  cases op with
  | mwrite data len =>
    obtain ⟨⟨h₁, rc⟩, hwrite, hdone⟩ := bind_eq_ok_iff.mp hexec
    cases hdone
    exact mwrite_loop_ledger (h := { h with total_size := h.total_size + len }) hledger hwrite
  | mwrite_head data len =>
    obtain ⟨⟨h₁, rc⟩, hwrite, hdone⟩ := bind_eq_ok_iff.mp hexec
    cases hdone
    exact mwrite_head_ledger hledger hwrite
  | mread | mgetc | mseek | mseek_pos => cases hwrites

theorem open_ledger {size : Nat} {af fe : Bool} (hopen : mopen alloc size af fe = .ok (some h)) : Ledger alloc h := by
  have hhandle : (alloc 0).isSome := by
    unfold mopen at hopen
    split at hopen
    · split at hopen
      · cases hopen
      · next hnone => simpa [Option.isSome_iff_ne_none] using hnone
    · cases hopen
  obtain ⟨junk, hjunk⟩ := Option.isSome_iff_exists.mp hhandle
  rw [eq_new_handle_of_mopen hopen]
  show List.Perm [0] (obtained alloc 1)
  rw [obtained_some hjunk]
  exact List.Perm.refl [0]

theorem ledger_along_run {size : Nat} {af fe : Bool} (hopen : mopen alloc size af fe = .ok (some h)) {ops : List Op}
    {outcomes : List Outcome} (hwrites : ∀ op ∈ ops, op.writes = true)
    (hrun : run (exec alloc) h ops = .ok (h', outcomes)) : Ledger alloc h' :=
  run_keeps_of_mem (Ledger alloc) (fun _ _ _ _ hledger hwrites hexec => exec_ledger hledger hwrites hexec)
    (open_ledger hopen) hwrites hrun

/-- Every pointer that is obtained is in its place once. -/
theorem Ledger.count_eq_one {n : Nat} (hledger : Ledger alloc h) (hn : n ∈ obtained alloc h.allocs) :
    (0 :: (h.freed ++ kept h.head)).count n = 1 := by
  rw [hledger.count_eq]
  have hnodup : (obtained alloc h.allocs).Nodup := List.nodup_range.filter _
  rw [hnodup.count, if_pos hn]

/-- All pointers but the handle go back to the caller's allocator. -/
theorem Ledger.properly_iff {n : Nat} (hledger : Ledger alloc h) (hn : n ∈ obtained alloc h.allocs) :
    (mclose h).Properly n ↔ n ≠ 0 := by
  unfold Released.Properly mclose
  dsimp only
  rw [mclose_loop_eq, List.mem_singleton]
  constructor
  · exact And.right
  · intro hne
    have hcount := hledger.count_eq_one hn
    rw [List.count_cons_of_ne hne.symm] at hcount
    exact ⟨hcount, hne⟩

/-- Of a handle with the caller's allocator, after any run of writes: each pointer
    but the handle goes to `free_fun` once and nowhere else. The handle is one of
    the pointers, so the allocator never gets back all it gave. -/
theorem properly_released_iff {size : Nat} (hopen : mopen alloc size true true = .ok (some h)) {ops : List Op}
    {outcomes : List Outcome} (hwrites : ∀ op ∈ ops, op.writes = true)
    (hrun : run (exec alloc) h ops = .ok (h', outcomes)) :
    (∀ n ∈ obtained alloc h'.allocs, (mclose h').Properly n ↔ n ≠ 0) ∧
      ¬∀ n ∈ obtained alloc h'.allocs, (mclose h').Properly n := by
  have hledger := ledger_along_run hopen hwrites hrun
  refine ⟨fun n hn => hledger.properly_iff hn, fun hall => ?_⟩
  have hhandle : 0 ∈ obtained alloc h'.allocs := hledger.mem_iff.mp List.mem_cons_self
  exact (hledger.properly_iff hhandle).mp (hall 0 hhandle) rfl

/-- The second buffer cannot be had. -/
def four_calls : Alloc := fun n => if n < 4 then some fun _ => 0 else none

def two_writes : List Op := [.mwrite [1, 2, 3] 3, .mwrite_head [4] 1]

theorem properly_released_iff_two :
    ∃ h h' outcomes, mopen four_calls 2 true true = .ok (some h) ∧
      run (exec four_calls) h two_writes = .ok (h', outcomes) ∧
      (mclose h').Properly 3 ∧ ¬(mclose h').Properly 0 := by
  obtain ⟨h', outcomes, hrun, hallocs⟩ := run_of_view (fun h : MFile => h.allocs)
    (by decide +kernel : (run (exec four_calls) (new_handle 2 true) two_writes).toOption.map
      (fun r => r.1.allocs) = some 6)
  have hopen : mopen four_calls 2 true true = .ok (some (new_handle 2 true)) := rfl
  obtain ⟨hiff, _⟩ := properly_released_iff hopen (by decide) hrun
  refine ⟨_, h', outcomes, hopen, hrun, (hiff 3 ?_).mpr (by decide), fun hhandle => (hiff 0 ?_).mp hhandle rfl⟩
  · rw [hallocs]
    decide
  · rw [hallocs]
    decide

/-- Even without a write the handle goes to `free`. -/
theorem handle_freed_elsewhere :
    ∃ h, mopen four_calls 2 true true = .ok (some h) ∧ 0 ∈ obtained four_calls h.allocs ∧
      mclose h = { free_fun := [], free := [0] } ∧ ¬(mclose h).Properly 0 :=
  ⟨new_handle 2 true, rfl, by decide, rfl, fun hproperly => hproperly.2 List.mem_cons_self⟩

end code_tools.mfile
