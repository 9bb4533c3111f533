import CodeTools.ServerEpoll.Server

/-!
# `fd_copy` and `fd_move` of `utils.c`

The child moves its connection and its ends of the pipes to the standard
descriptors before `execvp`. The kernel may refuse each `F_DUPFD`.
-/

namespace code_tools.server_epoll.descriptors

open descriptor

variable {α : Type}

/-- `F_GETFL` fails for a number that is not open. -/
def fd_copy (files : Table α) (to_ from_ : Nat) (dupfd : Bool) : Table α × Int :=
  if to_ = from_ then (files, 0)
  else
    match files.get? from_ with
    | none => (files, -1)
    | some file =>
      let files := files.close to_
      if dupfd then (files.insert (files.lowest_free_from to_) file, 0) else (files, -1)

def fd_move (files : Table α) (to_ from_ : Nat) (dupfd : Bool) : Table α × Int :=
  if to_ = from_ then (files, 0)
  else
    let (files, rc) := fd_copy files to_ from_ dupfd
    if rc = -1 then (files, -1) else (files.close from_, 0)

/-- The moves of `create_child_and_exec_with_idx_clientfd`; an error is the status
    given to `_exit`. -/
def move_descriptors (files : Table α) (connfd pfd1_r pfd2_w : Nat) (dupfd : Fin 3 → Bool) :
    Except Int (Table α) :=
  let (files, rc) := fd_move files 2 connfd (dupfd 0)
  if rc = -1 then .error 50
  else
    let (files, rc) := fd_move files 0 pfd1_r (dupfd 1)
    if rc = -1 then .error 50
    else
      let (files, rc) := fd_move files 1 pfd2_w (dupfd 2)
      if rc = -1 then .error 50 else .ok files

/-! ## One move -/

/-- What stands at each number after a move. -/
structure Moved (files files' : Table α) (to_ from_ : Nat) : Prop where
  new : files'.get? to_ = files.get? from_
  old : files'.get? from_ = none
  others : ∀ k, k ≠ to_ → k ≠ from_ → files'.get? k = files.get? k

/-- `F_DUPFD` takes the number that was closed just before, so an open descriptor
    is moved, whether or not its new number was in use. -/
theorem fd_move_moved (files : Table α) {to_ from_ : Nat} (hne : to_ ≠ from_)
    (hopen : (files.get? from_).isSome) :
    ∃ files', fd_move files to_ from_ true = (files', 0) ∧ Moved files files' to_ from_ := by
  obtain ⟨file, hfile⟩ := Option.isSome_iff_exists.mp hopen
  have hclosed : (files.close to_).get? to_ = none := by simp [Table.get?_close]
  have hcopy : fd_copy files to_ from_ true = ((files.close to_).insert to_ file, 0) := by
    simp [fd_copy, hne, hfile, Table.lowest_free_from_eq hclosed]
  have hlook : ∀ k, (((files.close to_).insert to_ file).close from_).get? k =
      if k = from_ then none else if k = to_ then some file else files.get? k := by
    intro k
    simp only [Table.get?_close, Table.get?_insert]
    by_cases hk : k = to_ <;> simp [hk]
  refine ⟨((files.close to_).insert to_ file).close from_, by simp [fd_move, hne, hcopy], ?_, ?_, ?_⟩
  · rw [hlook, if_neg hne, if_pos rfl, hfile]
  · rw [hlook, if_pos rfl]
  · intro k hto hfrom
    rw [hlook, if_neg hfrom, if_neg hto]

/-- Where the kernel has no descriptor to give, a move fails. -/
theorem fd_move_refused (files : Table α) {to_ from_ : Nat} (hne : to_ ≠ from_) :
    (fd_move files to_ from_ false).2 = -1 := by
  unfold fd_move fd_copy
  cases files.get? from_ <;> simp [hne]

/-! ## The moves of the child -/

section Child

variable {connfd pfd1_r pfd2_w : Nat}

/-- Any `F_DUPFD` that fails ends the child. -/
theorem move_descriptors_refused (files : Table α) (hconnfd : 3 ≤ connfd) (hpfd1 : 3 ≤ pfd1_r)
    (hpfd2 : 3 ≤ pfd2_w) {dupfd : Fin 3 → Bool} {i : Fin 3} (hdupfd : dupfd i = false) :
    move_descriptors files connfd pfd1_r pfd2_w dupfd = .error 50 := by
  unfold move_descriptors
  match i with
  | 0 => simp [hdupfd, fd_move_refused files (show 2 ≠ connfd by omega)]
  | 1 =>
    dsimp only
    split
    case isTrue => rfl
    case isFalse => simp [hdupfd, fd_move_refused _ (show 0 ≠ pfd1_r by omega)]
  | 2 =>
    dsimp only
    split
    case isTrue => rfl
    case isFalse =>
      split
      case isTrue => rfl
      case isFalse => simp [hdupfd, fd_move_refused _ (show 1 ≠ pfd2_w by omega)]

/-- For every table with three different descriptors above the standard ones, the
    moves put the connection at 2 and the pipes at 0 and 1, close the three numbers
    and leave all others alone. -/
theorem move_descriptors_spec (files : Table α) (hconnfd : 3 ≤ connfd) (hpfd1 : 3 ≤ pfd1_r)
    (hpfd2 : 3 ≤ pfd2_w) (hconn_open : (files.get? connfd).isSome) (hpfd1_open : (files.get? pfd1_r).isSome)
    (hpfd2_open : (files.get? pfd2_w).isSome) (hdistinct : [connfd, pfd1_r, pfd2_w].Nodup)
    (dupfd : Fin 3 → Bool) (hdupfd : ∀ i, dupfd i = true) :
    ∃ files', move_descriptors files connfd pfd1_r pfd2_w dupfd = .ok files' ∧
      files'.get? 2 = files.get? connfd ∧ files'.get? 0 = files.get? pfd1_r ∧
      files'.get? 1 = files.get? pfd2_w ∧
      (∀ k ∈ [connfd, pfd1_r, pfd2_w], files'.get? k = none) ∧
      ∀ k, 3 ≤ k → k ∉ [connfd, pfd1_r, pfd2_w] → files'.get? k = files.get? k := by
  simp only [List.nodup_cons, List.mem_cons, List.not_mem_nil, or_false, not_or] at hdistinct
  obtain ⟨⟨hne₁, hne₂⟩, hne₃, _⟩ := hdistinct
  -- what an earlier move leaves for a later one
  obtain ⟨files₁, hmove₁, hmoved₁⟩ := fd_move_moved files (show 2 ≠ connfd by omega) hconn_open
  have hpfd1₁ := hmoved₁.others pfd1_r (by omega) (by omega)
  have hpfd2₁ := hmoved₁.others pfd2_w (by omega) (by omega)
  obtain ⟨files₂, hmove₂, hmoved₂⟩ := fd_move_moved files₁ (show 0 ≠ pfd1_r by omega)
    (by rwa [hpfd1₁])
  have hpfd2₂ := hmoved₂.others pfd2_w (by omega) (by omega)
  obtain ⟨files₃, hmove₃, hmoved₃⟩ := fd_move_moved files₂ (show 1 ≠ pfd2_w by omega)
    (by rwa [hpfd2₂, hpfd2₁])
  refine ⟨files₃, by simp [move_descriptors, hdupfd, hmove₁, hmove₂, hmove₃], ?_, ?_, ?_, ?_, ?_⟩
  · rw [hmoved₃.others 2 (by omega) (by omega), hmoved₂.others 2 (by omega) (by omega), hmoved₁.new]
  · rw [hmoved₃.others 0 (by omega) (by omega), hmoved₂.new, hpfd1₁]
  · rw [hmoved₃.new, hpfd2₂, hpfd2₁]
  · simp only [List.forall_mem_cons, List.not_mem_nil, false_implies, implies_true, and_true]
    refine ⟨?_, ?_, hmoved₃.old⟩
    · rw [hmoved₃.others connfd (by omega) hne₂, hmoved₂.others connfd (by omega) hne₁, hmoved₁.old]
    · rw [hmoved₃.others pfd1_r (by omega) hne₃, hmoved₂.old]
  · intro k hk hmem
    simp only [List.mem_cons, List.not_mem_nil, or_false, not_or] at hmem
    rw [hmoved₃.others k (by omega) hmem.2.2, hmoved₂.others k (by omega) hmem.2.1,
      hmoved₁.others k (by omega) hmem.1]

/-- A child of the second client: pipes below and above the connection. -/
def child_files : Table server.File :=
  [(0, .other), (1, .other), (2, .other), (4, .pipe_r 0), (9, .connection), (5, .pipe_w 1), (7, .other)]

theorem move_descriptors_spec_child_files :
    ∃ files', move_descriptors child_files 9 4 5 (fun _ => true) = .ok files' ∧
      files'.get? 2 = some .connection ∧ files'.get? 0 = some (.pipe_r 0) ∧ files'.get? 1 = some (.pipe_w 1) ∧
      files'.get? 7 = some .other ∧ files'.get? 9 = none := by
  obtain ⟨files', hmoves, h2, h0, h1, hclosed, hothers⟩ := move_descriptors_spec child_files
    (show 3 ≤ 9 by decide) (show 3 ≤ 4 by decide) (show 3 ≤ 5 by decide) (by decide) (by decide) (by decide)
    (by decide) (fun _ => true) (fun _ => rfl)
  exact ⟨files', hmoves, h2, h0, h1, hothers 7 (by decide) (by decide), hclosed 9 (by decide)⟩

end Child

end code_tools.server_epoll.descriptors
