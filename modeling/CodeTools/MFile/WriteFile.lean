import CodeTools.MFile.Calls

/-!
# Writing a handle to a descriptor

`mwrite_file` hands all blocks to one `writev`. What `writev` returns is a
parameter; the entries that it was handed are returned as well.
-/

namespace code_tools.mfile

open cmem machine

/-- The bytes at `iov_base`, and how many of them to write. -/
structure IoVec where
  iov_base : List UInt8
  iov_len : Nat
deriving DecidableEq, Repr

def MAX_BLOCK_NUMBER : Nat := 1024

/-- The loop over the blocks; `n_iov` is the length of `iov`. The sum is kept as
    an `int` is; `none` means that the array is used up. -/
def mwrite_file_loop : Tailq DataBlock → List IoVec → UInt32 → Except Fault (Option (List IoVec × UInt32))
  | [], iov, file_size => .ok (some (iov, file_size))
  | (_, dbnp) :: q, iov, file_size =>
    if MAX_BLOCK_NUMBER ≤ iov.length then .error .outOfBounds
    else
      let iov := iov ++ [{ iov_base := dbnp.data, iov_len := dbnp.data_len }]
      let file_size := file_size + UInt32.ofNat dbnp.data_len
      if iov.length ≥ MAX_BLOCK_NUMBER then .ok none else mwrite_file_loop q iov file_size

/-- The return value, and what `writev` was called with. -/
def mwrite_file (writev : List IoVec → Int) (h : MFile) : Except Fault (Int × Option (List IoVec)) := do
  match ← mwrite_file_loop h.head [] 0 with
  | none => .ok (-1, none)
  | some (iov, file_size) =>
    if file_size = 0 then .ok (0, none)
    else
      let retval := writev iov
      .ok (if retval < 0 then -1 else retval, some iov)

/-- The bytes that the entries of `iov` name. -/
def gathered (iov : List IoVec) : List UInt8 := (iov.map fun v => v.iov_base.take v.iov_len).flatten

/-! ## One call -/

/-- The entry for a block. -/
def DataBlock.vec (block : DataBlock) : IoVec := { iov_base := block.data, iov_len := block.data_len }

theorem gathered_vecs {size : Nat} {q : Tailq DataBlock} (hsized : ∀ x ∈ q, x.2.Sized size) :
    gathered (q.map (·.2.vec)) = contents q := by
  unfold gathered contents
  rw [List.map_map]
  refine congrArg List.flatten (List.map_congr_left fun x hx => ?_)
  show x.2.data.take x.2.data_len = x.2.data.take x.2.current_write_count
  rw [(hsized x hx).data_len]

theorem mwrite_file_loop_gathers {size : Nat} {q : Tailq DataBlock} (hsized : ∀ x ∈ q, x.2.Sized size)
    {iov : List IoVec} {file_size : UInt32} (hroom : iov.length + q.length < MAX_BLOCK_NUMBER) :
    mwrite_file_loop q iov file_size =
      .ok (some (iov ++ q.map (·.2.vec), file_size + UInt32.ofNat (contents q).length)) := by
  induction q generalizing iov file_size with
  | nil =>
    rw [List.map_nil, List.append_nil, contents_nil, List.length_nil]
    exact congrArg (fun n => Except.ok (some (iov, n))) (UInt32.add_zero file_size).symm
  | cons x q ih =>
    obtain ⟨a, block⟩ := x
    have hblock := hsized (a, block) List.mem_cons_self
    have hlength : (contents ((a, block) :: q)).length = block.data_len + (contents q).length := by
      rw [contents_cons, List.length_append, hblock.length_written, hblock.data_len]
    rw [List.length_cons] at hroom
    rw [mwrite_file_loop, if_neg (by omega)]
    dsimp only
    rw [if_neg (by rw [List.length_append, List.length_singleton]; omega),
      ih (fun y hy => hsized y (List.mem_cons_of_mem _ hy)) (by rw [List.length_append, List.length_singleton]; omega),
      hlength, UInt32.ofNat_add, ← UInt32.add_assoc, List.append_assoc]
    rfl

theorem mwrite_file_loop_refuses {q : Tailq DataBlock} {iov : List IoVec} {file_size : UInt32}
    (hiov : iov.length < MAX_BLOCK_NUMBER) (hmany : MAX_BLOCK_NUMBER ≤ iov.length + q.length) :
    mwrite_file_loop q iov file_size = .ok none := by
  induction q generalizing iov file_size with
  | nil =>
    rw [List.length_nil] at hmany
    omega
  | cons x q ih =>
    rw [List.length_cons] at hmany
    rw [mwrite_file_loop, if_neg (by omega)]
    dsimp only
    by_cases hlast : iov.length + 1 ≥ MAX_BLOCK_NUMBER
    · rw [if_pos (by rw [List.length_append, List.length_singleton]; exact hlast)]
    · rw [if_neg (by rw [List.length_append, List.length_singleton]; exact hlast)]
      apply ih
      · rw [List.length_append, List.length_singleton]
        omega
      · rw [List.length_append, List.length_singleton]
        omega

/-- With 1024 blocks or more nothing is written. Otherwise all bytes are handed to
    `writev` in order, and there is no call for none. -/
theorem mwrite_file_spec {h : MFile} (hsound : Sound h) (hbytes : (content h).length < 2 ^ 31)
    (writev : List IoVec → Int) :
    mwrite_file writev h = .ok
      (if MAX_BLOCK_NUMBER ≤ h.block_num then (-1, none)
        else if content h = [] then (0, none)
        else (max (-1) (writev (h.head.map (·.2.vec))), some (h.head.map (·.2.vec)))) := by
  unfold mwrite_file
  rw [hsound.block_num]
  by_cases hmany : MAX_BLOCK_NUMBER ≤ h.head.length
  · have hrefuses : mwrite_file_loop h.head [] 0 = .ok none :=
      mwrite_file_loop_refuses (by decide) (by rw [List.length_nil, Nat.zero_add]; exact hmany)
    rw [if_pos hmany, hrefuses, ok_bind]
  · rw [if_neg hmany, mwrite_file_loop_gathers hsound.sized (by rw [List.length_nil]; omega), ok_bind]
    dsimp only
    have hsum : 0 + UInt32.ofNat (contents h.head).length = 0 ↔ content h = [] := by
      have hlt : (contents h.head).length < 2 ^ 31 := hbytes
      rw [UInt32.zero_add, ← UInt32.toNat_inj, UInt32.toNat_ofNat', Nat.mod_eq_of_lt (by omega)]
      exact List.length_eq_zero_iff
    by_cases hnone : content h = []
    · rw [if_pos hnone, if_pos (hsum.mpr hnone)]
    · rw [if_neg hnone, if_neg (fun hzero => hnone (hsum.mp hzero)), List.nil_append]
      by_cases hneg : writev (h.head.map (·.2.vec)) < 0
      · rw [if_pos hneg, Int.max_eq_left (by omega)]
      · rw [if_neg hneg, Int.max_eq_right (by omega)]

/-! ## How many blocks calls make -/

/-- How far the queue would reach if only the writer's block had room. -/
def Reaches (h : MFile) (n : Nat) : Prop := n + room h = h.head.length * h.DATA_BLOCK_SIZE

theorem room_lt {h : MFile} (hlayout : Layout h) (hsize : 0 < h.DATA_BLOCK_SIZE) : room h < h.DATA_BLOCK_SIZE := by
  unfold room
  split
  · exact hsize
  · cases hlast : h.head.getLast? with
    | none => exact hsize
    | some x =>
      have hpos := (hlayout.filled x (List.mem_of_getLast? hlast)).pos
      rw [Option.elim_some]
      omega

/-- Only the last block has room, so the number of blocks is a quotient rounded up. -/
theorem Reaches.length {h : MFile} {n : Nat} (hreaches : Reaches h n) (hlayout : Layout h)
    (hsize : 0 < h.DATA_BLOCK_SIZE) : h.head.length = (n + (h.DATA_BLOCK_SIZE - 1)) / h.DATA_BLOCK_SIZE := by
  have hroom := room_lt hlayout hsize
  have hsum : n + room h = h.head.length * h.DATA_BLOCK_SIZE := hreaches
  refine (Nat.div_eq_of_lt_le ?_ ?_).symm
  · omega
  · rw [Nat.succ_mul]
    omega

/-- Before a copy the writer's block is the last, and its room is all there is. -/
theorem write_block_reaches {alloc : Alloc} (halloc : ∀ n, (alloc n).isSome) {h h' : MFile} {n : Nat}
    (hstart : write_block alloc h = (h', true)) (hreaches : Reaches h n) {pre : Tailq DataBlock} {a : Nat}
    {block : DataBlock} (hroom : Room h' pre a block) :
    n + (h.DATA_BLOCK_SIZE - block.current_write_count) = (pre.length + 1) * h.DATA_BLOCK_SIZE := by
  have hsum : n + room h = h.head.length * h.DATA_BLOCK_SIZE := hreaches
  have hlast := hroom.head
  unfold write_block at hstart
  by_cases hfull : h.is_full = true
  · obtain ⟨new, hnew, hcount, _⟩ := new_block_granted (⟨halloc _, halloc _⟩ : Granted alloc h.allocs)
    rw [if_pos hfull, hnew] at hstart
    cases hstart
    obtain ⟨hpre, heq⟩ := List.append_singleton_inj.mp hlast
    obtain ⟨_, rfl⟩ := Prod.mk.inj heq
    rw [hcount, ← hpre, Nat.succ_mul, ← hsum, room, if_pos hfull]
    rfl
  · rw [if_neg hfull] at hstart
    cases hstart
    rw [room, if_neg hfull, hlast, List.getLast?_concat, List.length_append] at hsum
    exact hsum

theorem mwrite_loop_done {alloc : Alloc} {fuel : Nat} {h : MFile} {data : List UInt8} {len : Int} {writed : Nat}
    (hdone : len ≤ writed) : mwrite_loop alloc fuel h data len writed = .ok (h, 1) := by
  unfold mwrite_loop
  rw [if_neg (by omega)]

/-- A pass of the write loop makes the queue reach further by what it copies. -/
theorem mwrite_loop_pass {alloc : Alloc} (halloc : ∀ n, (alloc n).isSome) {data : List UInt8} {n writed m : Nat}
    {h : MFile} (hsound : Sound h) (hsize : 0 < h.DATA_BLOCK_SIZE) (hdata : n ≤ data.length) (hmore : writed < n)
    (hreaches : Reaches h m) :
    ∃ h' count, 0 < count ∧ writed + count ≤ n ∧ Sound h' ∧ h'.DATA_BLOCK_SIZE = h.DATA_BLOCK_SIZE ∧
      Reaches h' (m + count) ∧
      ∀ fuel, mwrite_loop alloc (fuel + 1) h data n writed = mwrite_loop alloc fuel h' data n (writed + count) := by
  obtain ⟨h₁, pre, a, block, old, hstart, hroom, huntouched, _⟩ :=
    write_block_spec hsound hsize fun _ => (⟨halloc _, halloc _⟩ : Granted alloc h.allocs)
  obtain ⟨hpre, _⟩ := Tailq.notMem_of_nodup (hroom.head ▸ hroom.nodup)
  have hderef : h₁.head.read h₁.current_write_p = .ok block := by
    rw [hroom.head, hroom.writer]
    exact Tailq.read_split hpre
  have hless := hroom.room
  have hsize₁ := huntouched.size
  have hfrom := write_block_reaches halloc hstart hreaches hroom
  obtain ⟨free_count, hfree⟩ : ∃ free_count, free_count = h₁.DATA_BLOCK_SIZE - block.current_write_count := ⟨_, rfl⟩
  obtain ⟨h₂, block₂, hcopy, hsound₂, huntouched₂, hhead₂, _, _, _, hfull₂, _, hroom₂⟩ :=
    append_bytes_spec hroom (by omega : 0 < min (n - writed) free_count) (by omega)
      (by omega : writed + min (n - writed) free_count ≤ data.length)
  have hsize₂ : h₂.DATA_BLOCK_SIZE = h.DATA_BLOCK_SIZE := huntouched₂.size.trans hsize₁
  refine ⟨h₂, min (n - writed) free_count, by omega, by omega, hsound₂, hsize₂, ?_, fun fuel => ?_⟩
  · unfold Reaches
    rw [hroom₂, hhead₂, hsize₂, List.length_append, List.length_singleton, ← hfrom]
    omega
  · rw [mwrite_loop, if_pos (by omega)]
    dsimp only
    rw [hstart]
    dsimp only
    rw [hderef, ok_bind, ← hfree, show ((n : Int) - writed).toNat = n - writed by omega]
    by_cases hfits : n - writed ≤ free_count
    · rw [Nat.min_eq_left hfits] at hcopy ⊢
      rw [if_pos hfits, hcopy, ok_bind, mwrite_loop_done (by omega)]
    · rw [Nat.min_eq_right (by omega)] at hcopy hfull₂ ⊢
      have hsame : { h₂ with is_full := true } = h₂ := by rw [← hfull₂.mpr (by omega)]
      rw [if_neg hfits, hcopy, ok_bind, hsame]

theorem mwrite_loop_reaches {alloc : Alloc} (halloc : ∀ n, (alloc n).isSome) {data : List UInt8}
    {n writed fuel m : Nat} {h h' : MFile} {rc : Int} (hsound : Sound h) (hsize : 0 < h.DATA_BLOCK_SIZE)
    (hdata : n ≤ data.length) (hwrited : writed ≤ n) (hreaches : Reaches h m)
    (hloop : mwrite_loop alloc fuel h data n writed = .ok (h', rc)) : Reaches h' (m + (n - writed)) := by
  induction fuel generalizing h writed m with
  | zero =>
    rw [mwrite_loop] at hloop
    by_cases hmore : (writed : Int) < n
    · rw [if_pos hmore] at hloop
      cases hloop
    · rw [if_neg hmore] at hloop
      cases hloop
      rwa [show n - writed = 0 by omega]
  | succ fuel ih =>
    by_cases hmore : writed < n
    · obtain ⟨h₁, count, _, hle, hsound₁, hsize₁, hreaches₁, hpass⟩ :=
        mwrite_loop_pass halloc hsound hsize hdata hmore hreaches
      rw [hpass] at hloop
      have hrest := ih hsound₁ (by rw [hsize₁]; exact hsize) hle hreaches₁ hloop
      rwa [show m + (n - writed) = m + count + (n - (writed + count)) by omega]
    · rw [mwrite_loop_done (by omega)] at hloop
      cases hloop
      rwa [show n - writed = 0 by omega]

/-- The flag only repeats what the writer's block says. -/
theorem room_eq {h : MFile} (hlayout : Layout h) :
    room h = if h.current_write_p = none then 0
      else h.head.getLast?.elim 0 fun x => h.DATA_BLOCK_SIZE - x.2.current_write_count := by
  unfold room
  cases hp : h.current_write_p with
  | none => rw [if_pos (hlayout.unwritten hp), if_pos rfl]
  | some a =>
    obtain ⟨block, hlast, hiff⟩ := hlayout.writer a hp
    rw [if_neg (Option.some_ne_none a), hlast, Option.elim_some]
    split
    · next hfull => rw [hiff.mp hfull, Nat.sub_self]
    · rfl

theorem SameStore.room_eq {h h' : MFile} (hsame : SameStore h h') : room h' = room h := by
  have hlast : ∀ q : Tailq DataBlock, q.getLast?.elim 0 (fun x => h.DATA_BLOCK_SIZE - x.2.current_write_count) =
      (mfile.shelf q).getLast?.elim 0 fun x => h.DATA_BLOCK_SIZE - x.2.current_write_count := by
    intro q
    unfold mfile.shelf
    rw [List.getLast?_map]
    cases q.getLast? with
    | none => rfl
    | some x => rfl
  unfold room
  rw [hsame.is_full, hsame.size, hlast h'.head, hsame.shelf, ← hlast]

theorem SameStore.length_eq {h h' : MFile} (hsame : SameStore h h') : h'.head.length = h.head.length := by
  have hlength := congrArg List.length hsame.addresses_eq
  rwa [Tailq.addresses, Tailq.addresses, List.length_map, List.length_map] at hlength

/-- How much further a call makes the queue reach. A block put in front counts as
    full, whatever it holds. -/
def Call.reach (size : Nat) : Call → Nat
  | .op (.mwrite _ len) => len.toNat
  | .op (.mwrite_head _ len) => if len > size then 0 else size
  | .op (.mread _) => 0
  | .op (.mgetc _) => 0
  | .op .mseek => 0
  | .op (.mseek_pos _) => 0
  | .mread_line _ _ _ => 0

/-- A call that stores nothing leaves the queue as long as it was. -/
theorem reach_of_store {call : Call} (hcovered : call.Covered) (hnonempty : call.Nonempty)
    (hstore : ∀ size bytes, call.store size bytes = bytes) (size : Nat) : call.reach size = 0 := by
  cases call with
  | mread_line buf n beyond => rfl
  | op op =>
    cases op with
    | mwrite data len =>
      have hcovered : len ≤ data.length := hcovered
      have hnone : data.take len.toNat = [] := hstore 0 []
      have hlength := congrArg List.length hnone
      rw [List.length_take, List.length_nil] at hlength
      show len.toNat = 0
      omega
    | mwrite_head data len =>
      have hcovered : len ≤ data.length := hcovered
      have hpos : 1 ≤ len := hnonempty
      have hnone : (if len > len.toNat then [] else data.take len.toNat ++ []) = [] := hstore len.toNat []
      rw [if_neg (by omega), List.append_nil] at hnone
      have hlength := congrArg List.length hnone
      rw [List.length_take, List.length_nil] at hlength
      omega
    | mread len => rfl
    | mgetc beyond => rfl
    | mseek => rfl
    | mseek_pos pos => rfl

theorem perform_reaches {alloc : Alloc} (halloc : ∀ n, (alloc n).isSome) {h h' : MFile} {call : Call}
    {reply : Reply} {n : Nat} (hlayout : Layout h) (hsize : 0 < h.DATA_BLOCK_SIZE) (hcovered : call.Covered)
    (hnonempty : call.Nonempty) (hperform : perform alloc h call = .ok (h', reply)) (hreaches : Reaches h n) :
    Reaches h' (n + call.reach h.DATA_BLOCK_SIZE) := by
  obtain ⟨hlayout', _⟩ := perform_layout halloc hlayout hsize hcovered hnonempty hperform
  rcases perform_cases hlayout.sound hperform with ⟨data, len, rc, rfl, hwrite⟩ | ⟨data, len, rc, rfl, hwrite⟩ |
    ⟨hstore, hsame, _⟩
  · have hcovered : len ≤ data.length := hcovered
    by_cases hneg : len < 0
    · rw [mwrite, mwrite_loop_done (by omega)] at hwrite
      cases hwrite
      rwa [Call.reach, show len.toNat = 0 by omega]
    · obtain ⟨k, rfl⟩ := Int.eq_ofNat_of_zero_le (by omega : 0 ≤ len)
      obtain ⟨nodup, fresh, block_num, sized, unwritten, writer, reader⟩ := hlayout.sound
      have hstart : Sound { h with total_size := h.total_size + k } :=
        ⟨nodup, fresh, block_num, sized, unwritten, writer, reader⟩
      exact mwrite_loop_reaches halloc hstart hsize (by omega : k ≤ data.length) (Nat.zero_le k) hreaches hwrite
  · by_cases hlong : (h.DATA_BLOCK_SIZE : Int) < len
    · rw [mwrite_head_too_long hlong] at hwrite
      cases hwrite
      rwa [Call.reach, if_pos hlong]
    · have hcovered : len ≤ data.length := hcovered
      have hpos : 1 ≤ len := hnonempty
      obtain ⟨k, rfl⟩ := Int.eq_ofNat_of_zero_le (by omega : 0 ≤ len)
      obtain ⟨h₁, block, hwrite₁, _, hhead, _, _, _, hsize₁⟩ :=
        mwrite_head_spec halloc hlayout (by omega : 0 < k) (by omega) (by omega : k ≤ data.length)
      obtain ⟨rfl, rfl⟩ := ok_inj hwrite₁ hwrite
      obtain ⟨⟨_, _, _, hwriter⟩, _⟩ := mwrite_head_cases hwrite
      have hsum : n + room h = h.head.length * h.DATA_BLOCK_SIZE := hreaches
      have hroom : room h₁ = room h := by
        rw [room_eq hlayout', room_eq hlayout, hwriter, hsize₁, hhead]
        cases hp : h.current_write_p with
        | none => rfl
        | some a =>
          obtain ⟨last, hlast, _⟩ := hlayout.writer a hp
          rw [List.getLast?_cons, hlast]
          rfl
      rw [Call.reach, if_neg hlong, Reaches, hroom, hhead, hsize₁, List.length_cons, Nat.succ_mul]
      omega
  · rw [reach_of_store hcovered hnonempty hstore, Reaches, hsame.room_eq, hsame.length_eq, hsame.size]
    exact hreaches

/-- How many blocks the calls make, of which only the last can have room. -/
def blocks_of (size : Nat) (calls : List Call) : Nat :=
  (calls.foldl (fun n call => n + call.reach size) 0 + (size - 1)) / size

theorem run_reaches {alloc : Alloc} (halloc : ∀ n, (alloc n).isSome) {calls : List Call} {h h' : MFile}
    {replies : List Reply} {n : Nat} (hcovered : ∀ call ∈ calls, call.Covered)
    (hnonempty : ∀ call ∈ calls, call.Nonempty) (hlayout : Layout h) (hsize : 0 < h.DATA_BLOCK_SIZE)
    (hreaches : Reaches h n) (hrun : run (perform alloc) h calls = .ok (h', replies)) :
    Reaches h' (calls.foldl (fun n call => n + call.reach h.DATA_BLOCK_SIZE) n) := by
  induction calls generalizing h replies n with
  | nil =>
    obtain ⟨rfl, _⟩ := by simpa using hrun
    exact hreaches
  | cons call calls ih =>
    obtain ⟨h₁, reply, replies', hperform, hrest, _⟩ := run_cons_eq_ok_iff.mp hrun
    have hcovered₁ := hcovered call List.mem_cons_self
    have hnonempty₁ := hnonempty call List.mem_cons_self
    obtain ⟨_, hsize₁⟩ := perform_sound hlayout.sound hsize hcovered₁ hperform
    obtain ⟨hlayout₁, _⟩ := perform_layout halloc hlayout hsize hcovered₁ hnonempty₁ hperform
    have hreaches₁ := perform_reaches halloc hlayout hsize hcovered₁ hnonempty₁ hperform hreaches
    have hrest' := ih (fun c hc => hcovered c (List.mem_cons_of_mem call hc))
      (fun c hc => hnonempty c (List.mem_cons_of_mem call hc)) hlayout₁ (by rw [hsize₁]; exact hsize) hreaches₁ hrest
    rwa [hsize₁] at hrest'

end code_tools.mfile
