import CodeTools.Lib.Machine
import CodeTools.MFile.Content
import CodeTools.MFile.Readers
import CodeTools.MFile.Unread

/-!
# The states that calls lead to

A line is read byte by byte, so it moves only the reader. Whatever the allocator
refuses, the queue stays sound; with a block for every write and without empty
head writes no block is empty.
-/

namespace code_tools.mfile

open cmem machine

/-! ## Lines move the reader -/

/-- The byte held back is no part of the store. -/
theorem SameStore.ccache (h : MFile) (c : UInt8) : SameStore h { h with ccache := c } :=
  ⟨rfl, rfl, rfl, rfl, rfl, rfl, rfl, rfl⟩

theorem sound_steady (h₀ : MFile) : LineSteady fun h k => h = k ∧ SameStore h₀ h ∧ Sound h := by
  refine .of_keeps (steady_of_keeps ?_ ?_ ?_) ?_
  · rintro h a ⟨hsame, hsound⟩ hstart
    exact ⟨hsame.trans (SameStore.reader h (some a) h.is_empty), hsound.read_start hstart⟩
  · rintro h a ⟨hsame, hsound⟩ hnext
    exact ⟨hsame.trans (SameStore.reader h (some a) h.is_empty), hsound.seek_to (Tailq.next_mem hnext)⟩
  · rintro h block count ⟨hsame, hsound⟩ _
    obtain ⟨hsame', hsound'⟩ := hsound.consume block count
    exact ⟨hsame.trans hsame', hsound'⟩
  · rintro h c ⟨hsame, hsound⟩
    exact ⟨hsame.trans (SameStore.ccache h c), hsound.of_same (SameStore.ccache h c) hsound.reader⟩

theorem mread_line_same {h h' : MFile} {buf buf' : List UInt8} {n : Int} {beyond : Nat → UInt8} {r : Nat}
    (hsound : Sound h) (hline : mread_line h buf n beyond = .ok (h', buf', r)) :
    SameStore h h' ∧ Sound h' :=
  (sound_steady h).keeps_mread_line ⟨SameStore.refl h, hsound⟩ hline

/-! ## One call -/

/-- The caller's buffer covers the length of a write. -/
def Call.Covered : Call → Prop
  | .op (.mwrite data len) => len ≤ data.length
  | .op (.mwrite_head data len) => len ≤ data.length
  | .op (.mread _) => True
  | .op (.mgetc _) => True
  | .op .mseek => True
  | .op (.mseek_pos _) => True
  | .mread_line _ _ _ => True

/-- A head write of at least one byte. -/
def Call.Nonempty : Call → Prop
  | .op (.mwrite_head _ len) => 1 ≤ len
  | .op (.mwrite _ _) => True
  | .op (.mread _) => True
  | .op (.mgetc _) => True
  | .op .mseek => True
  | .op (.mseek_pos _) => True
  | .mread_line _ _ _ => True

instance : ∀ call : Call, Decidable call.Covered
  | .op (.mwrite data len) => inferInstanceAs (Decidable (len ≤ data.length))
  | .op (.mwrite_head data len) => inferInstanceAs (Decidable (len ≤ data.length))
  | .op (.mread _) => .isTrue trivial
  | .op (.mgetc _) => .isTrue trivial
  | .op .mseek => .isTrue trivial
  | .op (.mseek_pos _) => .isTrue trivial
  | .mread_line _ _ _ => .isTrue trivial

instance : ∀ call : Call, Decidable call.Nonempty
  | .op (.mwrite_head _ len) => inferInstanceAs (Decidable (1 ≤ len))
  | .op (.mwrite _ _) => .isTrue trivial
  | .op (.mread _) => .isTrue trivial
  | .op (.mgetc _) => .isTrue trivial
  | .op .mseek => .isTrue trivial
  | .op (.mseek_pos _) => .isTrue trivial
  | .mread_line _ _ _ => .isTrue trivial

/-- What a call makes of the bytes in a handle with blocks of the given size. -/
def Call.store (size : Nat) (bytes : List UInt8) : Call → List UInt8
  | .op (.mwrite data len) => bytes ++ data.take len.toNat
  | .op (.mwrite_head data len) => if len > size then bytes else data.take len.toNat ++ bytes
  | .op (.mread _) => bytes
  | .op (.mgetc _) => bytes
  | .op .mseek => bytes
  | .op (.mseek_pos _) => bytes
  | .mread_line _ _ _ => bytes

theorem mwrite_head_too_long {alloc : Alloc} {h : MFile} {data : List UInt8} {len : Int}
    (hlong : h.DATA_BLOCK_SIZE < len) : mwrite_head alloc h data len = .ok (h, -1) := by
  unfold mwrite_head
  rw [if_pos hlong]

/-- A negative length that gets a block leaves the buffers. -/
theorem mwrite_head_negative {alloc : Alloc} {h : MFile} {data : List UInt8} {len : Int}
    (hgranted : Granted alloc h.allocs) (hneg : len < 0) : mwrite_head alloc h data len = .error .outOfBounds := by
  obtain ⟨block, hnew, _⟩ := new_block_granted (h := { h with total_size := h.total_size + len }) hgranted
  unfold mwrite_head
  rw [if_neg (by omega), hnew]
  dsimp only
  rw [if_pos hneg]

/-- A head write that succeeds puts a block that was not read before all others,
    or leaves the blocks alone. -/
theorem mwrite_head_cases {alloc : Alloc} {h h' : MFile} {data : List UInt8} {len rc : Int}
    (hwrite : mwrite_head alloc h data len = .ok (h', rc)) :
    (h'.current_read_p = h.current_read_p ∧ h'.is_empty = h.is_empty ∧ h'.ccache = h.ccache ∧
        h'.current_write_p = h.current_write_p) ∧
      (h'.head = h.head ∨ ∃ block, h'.head = (h.allocs, block) :: h.head ∧
        (block.current_write_count : Int) = len ∧ block.current_read_count = 0) := by
  by_cases hlong : (h.DATA_BLOCK_SIZE : Int) < len
  · rw [mwrite_head_too_long hlong] at hwrite
    cases hwrite
    exact ⟨⟨rfl, rfl, rfl, rfl⟩, Or.inl rfl⟩
  by_cases hgranted : Granted alloc h.allocs
  · by_cases hneg : len < 0
    · rw [mwrite_head_negative hgranted hneg] at hwrite
      cases hwrite
    obtain ⟨block, hnew, _, hread, _⟩ :=
      new_block_granted (h := { h with total_size := h.total_size + len }) hgranted
    unfold mwrite_head at hwrite
    rw [if_neg hlong, hnew] at hwrite
    dsimp only at hwrite
    rw [if_neg hneg] at hwrite
    obtain ⟨bytes, _, hwrite⟩ := bind_eq_ok_iff.mp hwrite
    obtain ⟨buffer, _, hwrite⟩ := bind_eq_ok_iff.mp hwrite
    cases hwrite
    exact ⟨⟨rfl, rfl, rfl, rfl⟩, Or.inr ⟨_, rfl, by dsimp only; omega, hread⟩⟩
  · obtain ⟨freed, hnew⟩ := new_block_refused (h := { h with total_size := h.total_size + len }) hgranted
    unfold mwrite_head at hwrite
    rw [if_neg hlong, hnew] at hwrite
    cases hwrite
    exact ⟨⟨rfl, rfl, rfl, rfl⟩, Or.inl rfl⟩

/-- What a head write puts before the blocks that are there. -/
theorem mwrite_head_front {alloc : Alloc} {h h' : MFile} {data : List UInt8} {len rc : Int}
    (hwrite : mwrite_head alloc h data len = .ok (h', rc)) :
    ∃ before, h'.head = before ++ h.head ∧ ∀ x ∈ before, x.1 = h.allocs ∧
      (x.2.current_write_count : Int) = len ∧ x.2.current_read_count = 0 := by
  obtain ⟨_, hhead | ⟨block, hhead, hcount, hread⟩⟩ := mwrite_head_cases hwrite
  · exact ⟨[], hhead, nofun⟩
  · refine ⟨[(h.allocs, block)], hhead, fun x hx => ?_⟩
    obtain rfl := List.mem_singleton.mp hx
    exact ⟨rfl, hcount, hread⟩

theorem perform_mwrite {alloc : Alloc} {h h' : MFile} {data : List UInt8} {len : Int} {reply : Reply}
    (hperform : perform alloc h (.op (.mwrite data len)) = .ok (h', reply)) :
    ∃ rc, mwrite alloc h data len = .ok (h', rc) := by
  obtain ⟨⟨h₁, outcome⟩, hexec, hdone⟩ := bind_eq_ok_iff.mp hperform
  obtain ⟨⟨h₂, rc⟩, hwrite, hreturn⟩ := bind_eq_ok_iff.mp hexec
  cases hdone
  cases hreturn
  exact ⟨rc, hwrite⟩

theorem perform_mwrite_head {alloc : Alloc} {h h' : MFile} {data : List UInt8} {len : Int} {reply : Reply}
    (hperform : perform alloc h (.op (.mwrite_head data len)) = .ok (h', reply)) :
    ∃ rc, mwrite_head alloc h data len = .ok (h', rc) := by
  obtain ⟨⟨h₁, outcome⟩, hexec, hdone⟩ := bind_eq_ok_iff.mp hperform
  obtain ⟨⟨h₂, rc⟩, hwrite, hreturn⟩ := bind_eq_ok_iff.mp hexec
  cases hdone
  cases hreturn
  exact ⟨rc, hwrite⟩

/-- A call that succeeds is a write, or it keeps the store. -/
theorem perform_cases {alloc : Alloc} {h h' : MFile} {call : Call} {reply : Reply} (hsound : Sound h)
    (hperform : perform alloc h call = .ok (h', reply)) :
    (∃ data len rc, call = .op (.mwrite data len) ∧ mwrite alloc h data len = .ok (h', rc)) ∨
      (∃ data len rc, call = .op (.mwrite_head data len) ∧ mwrite_head alloc h data len = .ok (h', rc)) ∨
      ((∀ size bytes, call.store size bytes = bytes) ∧ SameStore h h' ∧ Sound h') := by
  cases call with
  | mread_line buf n beyond =>
    obtain ⟨⟨h₁, buf₁, r⟩, hline, hdone⟩ := bind_eq_ok_iff.mp hperform
    cases hdone
    exact Or.inr (Or.inr ⟨fun _ _ => rfl, mread_line_same hsound hline⟩)
  | op op =>
    cases op with
    | mwrite data len =>
      obtain ⟨rc, hwrite⟩ := perform_mwrite hperform
      exact Or.inl ⟨data, len, rc, rfl, hwrite⟩
    | mwrite_head data len =>
      obtain ⟨rc, hwrite⟩ := perform_mwrite_head hperform
      exact Or.inr (Or.inl ⟨data, len, rc, rfl, hwrite⟩)
    | mread len =>
      obtain ⟨h₂, rc, bytes, hread, hkept⟩ := mread_same hsound len
      simp only [perform, exec, hread, ok_bind, Except.ok.injEq, Prod.mk.injEq] at hperform
      exact Or.inr (Or.inr ⟨fun _ _ => rfl, hperform.1 ▸ hkept⟩)
    | mgetc beyond =>
      obtain ⟨h₂, c, hread, hkept⟩ := mgetc_same hsound beyond
      simp only [perform, exec, hread, ok_bind, Except.ok.injEq, Prod.mk.injEq] at hperform
      exact Or.inr (Or.inr ⟨fun _ _ => rfl, hperform.1 ▸ hkept⟩)
    | mseek =>
      cases hperform
      exact Or.inr (Or.inr ⟨fun _ _ => rfl, mseek_same hsound⟩)
    | mseek_pos pos =>
      cases hperform
      exact Or.inr (Or.inr ⟨fun _ _ => rfl, mseek_pos_same hsound pos⟩)

/-- Every call that succeeds keeps the queue sound, whatever the allocator does. -/
theorem perform_sound {alloc : Alloc} {h h' : MFile} {call : Call} {reply : Reply} (hsound : Sound h)
    (hsize : 0 < h.DATA_BLOCK_SIZE) (hcovered : call.Covered)
    (hperform : perform alloc h call = .ok (h', reply)) :
    Sound h' ∧ h'.DATA_BLOCK_SIZE = h.DATA_BLOCK_SIZE := by
  rcases perform_cases hsound hperform with ⟨data, len, rc, rfl, hwrite⟩ | ⟨data, len, rc, rfl, hwrite⟩ |
    ⟨_, hsame, hsound'⟩
  · obtain ⟨h₁, rc₁, count, hwrite₁, hwrote, _⟩ := mwrite_wrote alloc hsound hsize hcovered
    obtain ⟨rfl, rfl⟩ := ok_inj hwrite₁ hwrite
    exact ⟨hwrote.sound, hwrote.untouched.size⟩
  · by_cases hlong : (h.DATA_BLOCK_SIZE : Int) < len
    · rw [mwrite_head_too_long hlong] at hwrite
      cases hwrite
      exact ⟨hsound, rfl⟩
    by_cases hgranted : Granted alloc h.allocs
    · by_cases hneg : len < 0
      · rw [mwrite_head_negative hgranted hneg] at hwrite
        cases hwrite
      · obtain ⟨n, rfl⟩ := Int.eq_ofNat_of_zero_le (by omega : 0 ≤ len)
        have hcovered : (n : Int) ≤ data.length := hcovered
        obtain ⟨h₁, block, hwrite₁, hsound₁, _, _, _, _, _, hsize₁⟩ :=
          mwrite_head_granted hsound hgranted (by omega) (by omega : n ≤ data.length)
        obtain ⟨rfl, rfl⟩ := ok_inj hwrite₁ hwrite
        exact ⟨hsound₁, hsize₁⟩
    · obtain ⟨h₁, hwrite₁, hsound₁, _, _, _, _, hsize₁⟩ :=
        mwrite_head_refused data hsound hgranted (by omega : len ≤ h.DATA_BLOCK_SIZE)
      obtain ⟨rfl, rfl⟩ := ok_inj hwrite₁ hwrite
      exact ⟨hsound₁, hsize₁⟩
  · exact ⟨hsound', hsame.size⟩

/-- With a block for every write and without empty head writes the bytes are what
    was written. -/
theorem perform_layout {alloc : Alloc} (halloc : ∀ n, (alloc n).isSome) {h h' : MFile} {call : Call}
    {reply : Reply} (hlayout : Layout h) (hsize : 0 < h.DATA_BLOCK_SIZE) (hcovered : call.Covered)
    (hnonempty : call.Nonempty) (hperform : perform alloc h call = .ok (h', reply)) :
    Layout h' ∧ content h' = call.store h.DATA_BLOCK_SIZE (content h) := by
  rcases perform_cases hlayout.sound hperform with ⟨data, len, rc, rfl, hwrite⟩ |
    ⟨data, len, rc, rfl, hwrite⟩ | ⟨hstore, hsame, hsound'⟩
  · obtain ⟨h₁, rc₁, count, hwrite₁, hwrote, hchunks⟩ := mwrite_wrote alloc hlayout.sound hsize hcovered
    obtain ⟨rfl, rfl⟩ := ok_inj hwrite₁ hwrite
    obtain ⟨_, rfl, _⟩ := hwrote.done (supplied_of_forall halloc _ _)
    exact ⟨layout_iff.mpr ⟨hwrote.sound, hwrote.solid hlayout.solid⟩, hchunks.contents_eq⟩
  · show Layout h' ∧ content h' = if _ then _ else _
    by_cases hlong : (h.DATA_BLOCK_SIZE : Int) < len
    · rw [mwrite_head_too_long hlong] at hwrite
      cases hwrite
      rw [if_pos hlong]
      exact ⟨hlayout, rfl⟩
    · have hcovered : len ≤ data.length := hcovered
      have hpos : 1 ≤ len := hnonempty
      obtain ⟨n, rfl⟩ := Int.eq_ofNat_of_zero_le (by omega : 0 ≤ len)
      obtain ⟨h₁, block, hwrite₁, hlayout₁, hhead, hwritten, _⟩ :=
        mwrite_head_spec halloc hlayout (by omega : 0 < n) (by omega) (by omega : n ≤ data.length)
      obtain ⟨rfl, rfl⟩ := ok_inj hwrite₁ hwrite
      refine ⟨hlayout₁, ?_⟩
      rw [if_neg hlong, content, hhead, contents_cons, hwritten]
      rfl
  · rw [hstore, hsame.content_eq]
    exact ⟨hlayout.of_same hsame hsound', rfl⟩

/-! ## Runs of calls -/

/-- Whatever the allocator refuses, runs lead to sound handles. -/
theorem sound_along_run {alloc : Alloc} {size : Nat} (hsize : 1 ≤ size) {af fe : Bool} {h h' : MFile}
    (hopen : mopen alloc size af fe = .ok (some h)) {calls : List Call} {replies : List Reply}
    (hcovered : ∀ call ∈ calls, call.Covered) (hrun : run (perform alloc) h calls = .ok (h', replies)) :
    Sound h' ∧ h'.DATA_BLOCK_SIZE = size := by
  have hholds := holds_of_open hsize hopen
  apply run_keeps_of_mem (fun h => Sound h ∧ h.DATA_BLOCK_SIZE = size) ?_
    ⟨hholds.layout.sound, hholds.block_size⟩ hcovered hrun
  rintro h call h' reply ⟨hsound, hblock⟩ hcovered hperform
  obtain ⟨hsound', hblock'⟩ := perform_sound hsound (by omega) hcovered hperform
  exact ⟨hsound', hblock'.trans hblock⟩

/-- The bytes that a handle should hold after some calls. -/
def stored (size : Nat) (calls : List Call) : List UInt8 := calls.foldl (fun bytes call => call.store size bytes) []

theorem run_layout {alloc : Alloc} (halloc : ∀ n, (alloc n).isSome) {size : Nat} (hsize : 1 ≤ size)
    {calls : List Call} {h h' : MFile} {replies : List Reply} (hcovered : ∀ call ∈ calls, call.Covered)
    (hnonempty : ∀ call ∈ calls, call.Nonempty) (hlayout : Layout h) (hblock : h.DATA_BLOCK_SIZE = size)
    (hrun : run (perform alloc) h calls = .ok (h', replies)) :
    Layout h' ∧ h'.DATA_BLOCK_SIZE = size ∧
      content h' = calls.foldl (fun bytes call => call.store size bytes) (content h) := by
  induction calls generalizing h replies with
  | nil =>
    obtain ⟨rfl, _⟩ := by simpa using hrun
    exact ⟨hlayout, hblock, rfl⟩
  | cons call calls ih =>
    obtain ⟨h₁, reply, replies', hperform, hrest, _⟩ := run_cons_eq_ok_iff.mp hrun
    obtain ⟨_, hblock₁⟩ := perform_sound hlayout.sound (by omega) (hcovered call List.mem_cons_self) hperform
    obtain ⟨hlayout₁, hcontent₁⟩ := perform_layout halloc hlayout (by omega) (hcovered call List.mem_cons_self)
      (hnonempty call List.mem_cons_self) hperform
    rw [hblock] at hcontent₁
    rw [List.foldl_cons, ← hcontent₁]
    exact ih (fun c hc => hcovered c (List.mem_cons_of_mem call hc))
      (fun c hc => hnonempty c (List.mem_cons_of_mem call hc)) hlayout₁ (hblock₁.trans hblock) hrest

/-- With an allocator that grants everything runs lead to handles that hold what
    was written, in blocks that are not empty. -/
theorem layout_along_run {alloc : Alloc} (halloc : ∀ n, (alloc n).isSome) {size : Nat} (hsize : 1 ≤ size)
    {af fe : Bool} {h h' : MFile} (hopen : mopen alloc size af fe = .ok (some h)) {calls : List Call}
    {replies : List Reply} (hcovered : ∀ call ∈ calls, call.Covered) (hnonempty : ∀ call ∈ calls, call.Nonempty)
    (hrun : run (perform alloc) h calls = .ok (h', replies)) :
    Layout h' ∧ h'.DATA_BLOCK_SIZE = size ∧ content h' = stored size calls := by
  have hholds := holds_of_open hsize hopen
  have hempty : content h = [] := hholds.bytes
  have hall := run_layout halloc hsize hcovered hnonempty hholds.layout hholds.block_size hrun
  rwa [hempty] at hall

end code_tools.mfile
