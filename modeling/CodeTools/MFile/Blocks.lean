import CodeTools.MFile.Model

/-!
# The queue of blocks and what writing does to it
-/

namespace code_tools.mfile

open cmem

/-- The bytes of a block that were written. -/
def DataBlock.written (block : DataBlock) : List UInt8 := block.data.take block.current_write_count

/-- The bytes that a queue of blocks holds. -/
def contents (q : Tailq DataBlock) : List UInt8 := (q.map (·.2.written)).flatten

@[simp] theorem contents_nil : contents [] = [] := rfl

theorem contents_cons (x : Nat × DataBlock) (q : Tailq DataBlock) :
    contents (x :: q) = x.2.written ++ contents q := by
  simp [contents]

theorem contents_append (q q' : Tailq DataBlock) : contents (q ++ q') = contents q ++ contents q' := by
  simp [contents]

theorem contents_singleton (a : Nat) (block : DataBlock) : contents [(a, block)] = block.written := by
  simp [contents]

/-- The stored bytes of a handle. -/
def content (h : MFile) : List UInt8 := contents h.head

/-- A block of the given buffer size that holds something. -/
structure DataBlock.Filled (size : Nat) (block : DataBlock) : Prop where
  pos : 0 < block.current_write_count
  data_len : block.data_len = block.current_write_count
  le : block.current_write_count ≤ size
  length : block.data.length = size

/-- A block of the given buffer size that may be empty. -/
structure DataBlock.Sized (size : Nat) (block : DataBlock) : Prop where
  data_len : block.data_len = block.current_write_count
  le : block.current_write_count ≤ size
  length : block.data.length = size

theorem DataBlock.Filled.sized {size : Nat} {block : DataBlock} (h : block.Filled size) : block.Sized size :=
  ⟨h.data_len, h.le, h.length⟩

theorem DataBlock.Sized.length_written {size : Nat} {block : DataBlock} (h : block.Sized size) :
    block.written.length = block.current_write_count := by
  have hle := h.le
  rw [DataBlock.written, List.length_take, h.length]
  omega

theorem DataBlock.Filled.length_written {size : Nat} {block : DataBlock} (h : block.Filled size) :
    block.written.length = block.current_write_count :=
  h.sized.length_written

/-- The queue and the writer's view of it. The reader's position is not
    constrained beyond being in the queue. -/
structure Layout (h : MFile) : Prop where
  nodup : (Tailq.addresses h.head).Nodup
  fresh : ∀ a ∈ Tailq.addresses h.head, a < h.allocs
  block_num : h.block_num = h.head.length
  filled : ∀ x ∈ h.head, x.2.Filled h.DATA_BLOCK_SIZE
  unwritten : h.current_write_p = none → h.is_full = true
  writer : ∀ a, h.current_write_p = some a → ∃ block, h.head.getLast? = some (a, block) ∧
    (h.is_full = true ↔ block.current_write_count = h.DATA_BLOCK_SIZE)
  reader : ∀ a, h.current_read_p = some a → a ∈ Tailq.addresses h.head

/-- A layout in which blocks may be empty, as a head write of no bytes makes
    them. -/
structure Sound (h : MFile) : Prop where
  nodup : (Tailq.addresses h.head).Nodup
  fresh : ∀ a ∈ Tailq.addresses h.head, a < h.allocs
  block_num : h.block_num = h.head.length
  sized : ∀ x ∈ h.head, x.2.Sized h.DATA_BLOCK_SIZE
  unwritten : h.current_write_p = none → h.is_full = true
  writer : ∀ a, h.current_write_p = some a → ∃ block, h.head.getLast? = some (a, block) ∧
    (h.is_full = true ↔ block.current_write_count = h.DATA_BLOCK_SIZE)
  reader : ∀ a, h.current_read_p = some a → a ∈ Tailq.addresses h.head

/-- No block is empty. -/
def Solid (q : Tailq DataBlock) : Prop := ∀ x ∈ q, 0 < x.2.current_write_count

theorem layout_iff {h : MFile} : Layout h ↔ Sound h ∧ Solid h.head := by
  constructor
  · intro hlayout
    exact ⟨⟨hlayout.nodup, hlayout.fresh, hlayout.block_num, fun x hx => (hlayout.filled x hx).sized,
      hlayout.unwritten, hlayout.writer, hlayout.reader⟩, fun x hx => (hlayout.filled x hx).pos⟩
  · rintro ⟨hsound, hsolid⟩
    refine ⟨hsound.nodup, hsound.fresh, hsound.block_num, fun x hx => ?_, hsound.unwritten, hsound.writer,
      hsound.reader⟩
    obtain ⟨hlen, hle, hbuffer⟩ := hsound.sized x hx
    exact ⟨hsolid x hx, hlen, hle, hbuffer⟩

theorem Layout.sound {h : MFile} (hlayout : Layout h) : Sound h := (layout_iff.mp hlayout).1

theorem Layout.solid {h : MFile} (hlayout : Layout h) : Solid h.head := (layout_iff.mp hlayout).2

/-- What writing leaves alone. -/
structure Untouched (h h' : MFile) : Prop where
  total_size : h'.total_size = h.total_size
  new_header_size : h'.new_header_size = h.new_header_size
  current_read_p : h'.current_read_p = h.current_read_p
  is_empty : h'.is_empty = h.is_empty
  size : h'.DATA_BLOCK_SIZE = h.DATA_BLOCK_SIZE

theorem Untouched.refl (h : MFile) : Untouched h h := ⟨rfl, rfl, rfl, rfl, rfl⟩

theorem Untouched.trans {h₁ h₂ h₃ : MFile} (h : Untouched h₁ h₂) (h' : Untouched h₂ h₃) :
    Untouched h₁ h₃ :=
  ⟨h'.total_size.trans h.total_size, h'.new_header_size.trans h.new_header_size,
    h'.current_read_p.trans h.current_read_p, h'.is_empty.trans h.is_empty, h'.size.trans h.size⟩

/-! ## One chunk -/

/-- One pass of the write loop: bytes are added to the last block, or to a new
    one behind it. Read counts stay. -/
def Chunk (q q' : Tailq DataBlock) (bytes : List UInt8) : Prop :=
  ∃ pre a, ∃ old : Option DataBlock, ∃ new, q = pre ++ (old.map (Prod.mk a)).toList ∧
    q' = pre ++ [(a, new)] ∧ new.written = (old.elim [] DataBlock.written) ++ bytes ∧
    new.current_read_count = old.elim 0 (·.current_read_count)

theorem Chunk.contents_eq {q q' : Tailq DataBlock} {bytes : List UInt8} (h : Chunk q q' bytes) :
    contents q' = contents q ++ bytes := by
  obtain ⟨pre, a, old, new, rfl, rfl, hwritten, _⟩ := h
  rw [contents_append, contents_append, contents_singleton, hwritten, List.append_assoc]
  cases old with
  | none => rfl
  | some block => simp [contents]

/-- A write as a sequence of chunks. -/
inductive Chunks : Tailq DataBlock → Tailq DataBlock → List UInt8 → Prop
  | nil (q : Tailq DataBlock) : Chunks q q []
  | cons {q₁ q₂ q₃ : Tailq DataBlock} {bytes bytes' : List UInt8} (hchunk : Chunk q₁ q₂ bytes)
      (hrest : Chunks q₂ q₃ bytes') : Chunks q₁ q₃ (bytes ++ bytes')

theorem Chunks.single {q q' : Tailq DataBlock} {bytes : List UInt8} (h : Chunk q q' bytes) :
    Chunks q q' bytes := by
  have hchunks := Chunks.cons h (.nil q')
  rwa [List.append_nil] at hchunks

theorem Chunks.contents_eq {q q' : Tailq DataBlock} {bytes : List UInt8} (h : Chunks q q' bytes) :
    contents q' = contents q ++ bytes := by
  induction h with
  | nil q => simp
  | cons hchunk _ ih => rw [ih, hchunk.contents_eq, List.append_assoc]

/-- Bytes are added to blocks that were not read, and new blocks were not read. -/
theorem Chunks.unread {q q' : Tailq DataBlock} {bytes : List UInt8} (hchunks : Chunks q q' bytes)
    (hunread : ∀ x ∈ q, x.2.current_read_count = 0) : ∀ x ∈ q', x.2.current_read_count = 0 := by
  induction hchunks with
  | nil => exact hunread
  | cons hchunk _ ih =>
    apply ih
    obtain ⟨pre, a, old, new, rfl, rfl, _, hread⟩ := hchunk
    intro x hx
    rcases List.mem_append.mp hx with hpre | hnew
    · exact hunread x (List.mem_append_left _ hpre)
    · obtain rfl := List.mem_singleton.mp hnew
      rw [hread]
      cases old with
      | none => rfl
      | some block => exact hunread (a, block) (by simp)

/-! ## What a write asks of the allocator -/

/-- Both calls for a new block are granted. -/
def Granted (alloc : Alloc) (n : Nat) : Prop := (alloc n).isSome ∧ (alloc (n + 1)).isSome

instance (alloc : Alloc) (n : Nat) : Decidable (Granted alloc n) :=
  inferInstanceAs (Decidable (_ ∧ _))

/-- The room that is left in the writer's block. -/
def room (h : MFile) : Nat :=
  if h.is_full then 0 else h.head.getLast?.elim 0 fun x => h.DATA_BLOCK_SIZE - x.2.current_write_count

/-- How many new blocks `n` bytes take when `room` is left. -/
def blocks_for (size room n : Nat) : Nat := (n - room + (size - 1)) / size

/-- The allocator grants every block that writing `n` bytes takes. -/
def Supplied (alloc : Alloc) (h : MFile) (n : Nat) : Prop :=
  ∀ k < blocks_for h.DATA_BLOCK_SIZE (room h) n, Granted alloc (h.allocs + 2 * k)

instance (alloc : Alloc) (h : MFile) (n : Nat) : Decidable (Supplied alloc h n) :=
  inferInstanceAs (Decidable (∀ k < _, _))

theorem blocks_for_zero {size : Nat} (hsize : 0 < size) (room : Nat) : blocks_for size room 0 = 0 := by
  unfold blocks_for
  rw [Nat.zero_sub, Nat.zero_add]
  exact Nat.div_eq_of_lt (by omega)

theorem blocks_for_within {size room count : Nat} (hcount : count ≤ room) (m : Nat) :
    blocks_for size room (count + m) = blocks_for size (room - count) m := by
  unfold blocks_for
  rw [show count + m - room = m - (room - count) by omega]

theorem blocks_for_full {size n : Nat} (hsize : 0 < size) (hn : 0 < n) :
    blocks_for size 0 n = blocks_for size size n + 1 := by
  unfold blocks_for
  by_cases hle : size ≤ n
  · rw [← Nat.add_div_right _ hsize]
    congr 1
    omega
  · have hone : (n - 0 + (size - 1)) / size = 1 := by
      apply Nat.div_eq_of_lt_le
      · omega
      · omega
    rw [hone, show n - size + (size - 1) = size - 1 by omega, Nat.div_eq_of_lt (by omega : size - 1 < size)]

theorem supplied_zero {alloc : Alloc} {h : MFile} (hsize : 0 < h.DATA_BLOCK_SIZE) : Supplied alloc h 0 := by
  intro k hk
  rw [blocks_for_zero hsize] at hk
  omega

theorem supplied_of_le {alloc : Alloc} {h : MFile} {n m : Nat} (hle : n ≤ m) (hsupplied : Supplied alloc h m) :
    Supplied alloc h n := by
  intro k hk
  apply hsupplied k
  have hmono : blocks_for h.DATA_BLOCK_SIZE (room h) n ≤ blocks_for h.DATA_BLOCK_SIZE (room h) m :=
    Nat.div_le_div_right (by omega)
  omega

theorem supplied_of_forall {alloc : Alloc} (halloc : ∀ n, (alloc n).isSome) (h : MFile) (n : Nat) :
    Supplied alloc h n :=
  fun _ _ => ⟨halloc _, halloc _⟩

/-- Bytes that fit ask for nothing. -/
theorem supplied_within {alloc : Alloc} {h h' : MFile} {count : Nat} (hcount : count ≤ room h)
    (hsize : h'.DATA_BLOCK_SIZE = h.DATA_BLOCK_SIZE) (hallocs : h'.allocs = h.allocs)
    (hroom : room h' = room h - count) (m : Nat) : Supplied alloc h (count + m) ↔ Supplied alloc h' m := by
  unfold Supplied
  rw [blocks_for_within hcount, hsize, hallocs, hroom]

/-- Bytes that do not fit ask for one block at a time. -/
theorem supplied_next {alloc : Alloc} {h h' : MFile} {count : Nat} (hfull : h.is_full = true)
    (hgranted : Granted alloc h.allocs) (hpos : 0 < count) (hcount : count ≤ h.DATA_BLOCK_SIZE)
    (hsize : h'.DATA_BLOCK_SIZE = h.DATA_BLOCK_SIZE) (hallocs : h'.allocs = h.allocs + 2)
    (hroom : room h' = h.DATA_BLOCK_SIZE - count) (m : Nat) :
    Supplied alloc h (count + m) ↔ Supplied alloc h' m := by
  have hnone : room h = 0 := if_pos hfull
  unfold Supplied
  rw [hnone, blocks_for_full (by omega) (by omega), blocks_for_within hcount, hsize, hallocs, hroom]
  constructor
  · intro hall k hk
    have hnext := hall (k + 1) (by omega)
    rwa [show h.allocs + 2 * (k + 1) = h.allocs + 2 + 2 * k by omega] at hnext
  · intro hall k hk
    cases k with
    | zero => exact hgranted
    | succ k =>
      rw [show h.allocs + 2 * (k + 1) = h.allocs + 2 + 2 * k by omega]
      exact hall k (by omega)

theorem not_supplied_of_refused {alloc : Alloc} {h : MFile} (hsize : 0 < h.DATA_BLOCK_SIZE)
    (hfull : h.is_full = true) (hrefused : ¬Granted alloc h.allocs) {n : Nat} (hn : 0 < n) :
    ¬Supplied alloc h n := by
  intro hsupplied
  have hnone : room h = 0 := if_pos hfull
  have hfirst := hsupplied 0 (by rw [hnone, blocks_for_full hsize hn]; omega)
  exact hrefused hfirst

/-! ## The write loop -/

/-- A block with room stands last and is the one to write to. -/
structure Room (h : MFile) (pre : Tailq DataBlock) (a : Nat) (block : DataBlock) : Prop where
  head : h.head = pre ++ [(a, block)]
  writer : h.current_write_p = some a
  nodup : (Tailq.addresses h.head).Nodup
  fresh : ∀ b ∈ Tailq.addresses h.head, b < h.allocs
  block_num : h.block_num = h.head.length
  sized : ∀ x ∈ pre, x.2.Sized h.DATA_BLOCK_SIZE
  reader : ∀ b, h.current_read_p = some b → b ∈ Tailq.addresses h.head
  room : block.current_write_count < h.DATA_BLOCK_SIZE
  length : block.data.length = h.DATA_BLOCK_SIZE

theorem new_block_granted {alloc : Alloc} {h : MFile} (hgranted : Granted alloc h.allocs) :
    ∃ block, new_block alloc h = ({ h with allocs := h.allocs + 2 }, some (h.allocs, block)) ∧
      block.current_write_count = 0 ∧ block.current_read_count = 0 ∧ block.data_len = 0 ∧
      block.data.length = h.DATA_BLOCK_SIZE := by
  obtain ⟨hfirst, hsecond⟩ := hgranted
  obtain ⟨junk, hfirst⟩ := Option.isSome_iff_exists.mp hfirst
  obtain ⟨junk', hsecond⟩ := Option.isSome_iff_exists.mp hsecond
  unfold new_block
  rw [hfirst]
  dsimp only
  rw [hsecond]
  exact ⟨_, rfl, rfl, rfl, rfl, by simp⟩

/-- The number of the allocator's next call after a block was refused. -/
def after_refusal (alloc : Alloc) (n : Nat) : Nat := if (alloc n).isSome then n + 2 else n + 1

theorem lt_after_refusal (alloc : Alloc) (n : Nat) : n < after_refusal alloc n := by
  unfold after_refusal
  split
  · omega
  · omega

theorem new_block_refused {alloc : Alloc} {h : MFile} (hrefused : ¬Granted alloc h.allocs) :
    ∃ freed, new_block alloc h =
      ({ h with allocs := after_refusal alloc h.allocs, freed := freed }, none) := by
  unfold new_block after_refusal
  cases hfirst : alloc h.allocs with
  | none => exact ⟨h.freed, rfl⟩
  | some junk =>
    cases hsecond : alloc (h.allocs + 1) with
    | none => exact ⟨h.freed ++ [h.allocs], rfl⟩
    | some junk' =>
      have hgranted : Granted alloc h.allocs := ⟨by rw [hfirst]; rfl, by rw [hsecond]; rfl⟩
      exact absurd hgranted hrefused

/-- Before a copy there is a block with room: the last one, or a new one if the
    allocator grants it. -/
theorem write_block_spec {alloc : Alloc} {h : MFile} (hsound : Sound h) (hsize : 0 < h.DATA_BLOCK_SIZE)
    (hblock : h.is_full = true → Granted alloc h.allocs) :
    ∃ h' pre a block, ∃ old : Option DataBlock, write_block alloc h = (h', true) ∧
      Room h' pre a block ∧ Untouched h h' ∧ h.head = pre ++ (old.map (Prod.mk a)).toList ∧
      block.written = old.elim [] DataBlock.written ∧
      block.current_read_count = old.elim 0 (·.current_read_count) ∧
      ∀ count h₂, 0 < count → block.current_write_count + count ≤ h.DATA_BLOCK_SIZE →
        h₂.DATA_BLOCK_SIZE = h.DATA_BLOCK_SIZE → h₂.allocs = h'.allocs →
        room h₂ = h.DATA_BLOCK_SIZE - (block.current_write_count + count) →
        ∀ m, Supplied alloc h (count + m) ↔ Supplied alloc h₂ m := by
  unfold write_block
  by_cases hfull : h.is_full = true
  · obtain ⟨block, hnew, hwrite, hread, _, hlength⟩ := new_block_granted (hblock hfull)
    rw [if_pos hfull, hnew]
    refine ⟨_, h.head, h.allocs, block, none, rfl, ⟨rfl, rfl, ?_, ?_, ?_, hsound.sized, ?_, ?_, hlength⟩,
      ⟨rfl, rfl, rfl, rfl, rfl⟩, by simp, ?_, hread, ?_⟩
    · show (Tailq.addresses (h.head ++ [(h.allocs, block)])).Nodup
      rw [Tailq.addresses_append, List.nodup_append]
      refine ⟨hsound.nodup, by simp [Tailq.addresses], ?_⟩
      intro b hb c hc
      have hlt := hsound.fresh b hb
      have hceq : c = h.allocs := by simpa [Tailq.addresses] using hc
      omega
    · intro b hb
      rw [Tailq.addresses_append, List.mem_append] at hb
      show b < h.allocs + 2
      rcases hb with hold | hlast
      · have hlt := hsound.fresh b hold
        omega
      · have hbeq : b = h.allocs := by simpa [Tailq.addresses] using hlast
        omega
    · show h.block_num + 1 = (h.head ++ [(h.allocs, block)]).length
      rw [hsound.block_num, List.length_append, List.length_singleton]
    · intro b hb
      rw [Tailq.addresses_append]
      exact List.mem_append_left _ (hsound.reader b hb)
    · show block.current_write_count < h.DATA_BLOCK_SIZE
      omega
    · rw [DataBlock.written, hwrite, List.take_zero]
      rfl
    · intro count h₂ hpos hcount hsize₂ hallocs₂ hroom₂
      exact supplied_next hfull (hblock hfull) hpos (by omega) hsize₂ hallocs₂ (by omega)
  · rw [if_neg hfull]
    obtain ⟨a, ha⟩ : ∃ a, h.current_write_p = some a := by
      cases hp : h.current_write_p with
      | none => exact absurd (hsound.unwritten hp) hfull
      | some a => exact ⟨a, rfl⟩
    obtain ⟨block, hlast, hiff⟩ := hsound.writer a ha
    obtain ⟨pre, hhead⟩ := List.getLast?_eq_some_iff.mp hlast
    have hmem : (a, block) ∈ h.head := by simp [hhead]
    have hsized := hsound.sized _ hmem
    have hroom : room h = h.DATA_BLOCK_SIZE - block.current_write_count := by
      unfold room
      rw [if_neg hfull, hlast, Option.elim_some]
    refine ⟨h, pre, a, block, some block, rfl, ⟨hhead, ha, hsound.nodup, hsound.fresh,
      hsound.block_num, ?_, hsound.reader, ?_, hsized.length⟩, Untouched.refl h, ?_, rfl, rfl, ?_⟩
    · intro x hx
      exact hsound.sized x (by simp [hhead, hx])
    · have hle := hsized.le
      have hne : block.current_write_count ≠ h.DATA_BLOCK_SIZE := fun heq => hfull (hiff.mpr heq)
      dsimp only at hle
      omega
    · simpa using hhead
    · intro count h₂ _ hcount hsize₂ hallocs₂ hroom₂
      exact supplied_within (by omega) hsize₂ hallocs₂ (by omega)

/-- A copy that fits in the block with room. -/
theorem append_bytes_spec {h : MFile} {pre : Tailq DataBlock} {a : Nat} {block : DataBlock}
    (hroom : Room h pre a block) {data : List UInt8} {writed count : Nat} (hcount : 0 < count)
    (hfits : block.current_write_count + count ≤ h.DATA_BLOCK_SIZE)
    (hdata : writed + count ≤ data.length) :
    ∃ h' block', append_bytes h data writed count = .ok h' ∧ Sound h' ∧ Untouched h h' ∧
      h'.head = pre ++ [(a, block')] ∧ block'.written = block.written ++ (data.drop writed).take count ∧
      block'.current_read_count = block.current_read_count ∧ 0 < block'.current_write_count ∧
      (h'.is_full = true ↔ block.current_write_count + count = h.DATA_BLOCK_SIZE) ∧ h'.allocs = h.allocs ∧
      room h' = h.DATA_BLOCK_SIZE - (block.current_write_count + count) := by
  obtain ⟨hpre, _⟩ := Tailq.notMem_of_nodup (hroom.head ▸ hroom.nodup)
  have hread : h.head.read h.current_write_p = .ok block := by
    rw [hroom.head, hroom.writer]
    exact Tailq.read_split hpre
  have hbytes : ((data.drop writed).take count).length = count := by
    simp only [List.length_take, List.length_drop]
    omega
  obtain ⟨buffer, hblit, hlength, htake⟩ : ∃ buffer,
      blit block.data block.current_write_count ((data.drop writed).take count) = .ok buffer ∧
        buffer.length = block.data.length ∧
        buffer.take (block.current_write_count + count) =
          block.data.take block.current_write_count ++ (data.drop writed).take count := by
    have hspec := blit_spec (by rw [hbytes, hroom.length]; exact hfits :
      block.current_write_count + ((data.drop writed).take count).length ≤ block.data.length)
    rwa [hbytes] at hspec
  obtain ⟨block', hblock⟩ : ∃ block' : DataBlock, block' = { block with
      data := buffer, current_write_count := block.current_write_count + count,
      data_len := block.current_write_count + count } := ⟨_, rfl⟩
  have hmodify : h.head.modify a (fun block' : DataBlock => { block' with
      data := buffer, current_write_count := block.current_write_count + count,
      data_len := block.current_write_count + count }) = pre ++ [(a, block')] := by
    have hsplit := hroom.nodup
    rw [hroom.head] at hsplit ⊢
    rw [Tailq.modify_split _ hsplit, hblock]
  have haddresses : Tailq.addresses (pre ++ [(a, block')]) = Tailq.addresses h.head := by
    rw [← hmodify, Tailq.addresses_modify]
  have hfull : decide (block.current_write_count + count = h.DATA_BLOCK_SIZE) = true ↔
      block.current_write_count + count = h.DATA_BLOCK_SIZE := decide_eq_true_iff
  generalize hflag : decide (block.current_write_count + count = h.DATA_BLOCK_SIZE) = flag at hfull
  refine ⟨{ h with head := pre ++ [(a, block')], is_full := flag }, block', ?_,
    ⟨?_, ?_, ?_, ?_, ?_, ?_, ?_⟩, ⟨rfl, rfl, rfl, rfl, rfl⟩, rfl, ?_, ?_, ?_, hfull, rfl, ?_⟩
  · unfold append_bytes
    rw [hread, ok_bind, slice_eq hdata, ok_bind, hblit, ok_bind, hroom.writer]
    simp only [Option.elim_some, hmodify, hflag]
  · rw [haddresses]
    exact hroom.nodup
  · rw [haddresses]
    exact hroom.fresh
  · show h.block_num = (pre ++ [(a, block')]).length
    rw [hroom.block_num, hroom.head, List.length_append, List.length_append]
    rfl
  · intro x hx
    rcases List.mem_append.mp hx with hold | hlast
    · exact hroom.sized x hold
    · obtain rfl : x = (a, block') := by simpa using hlast
      rw [hblock]
      exact ⟨rfl, hfits, by dsimp only; rw [hlength, hroom.length]⟩
  · intro hnone
    rw [hroom.writer] at hnone
    cases hnone
  · intro b hb
    obtain rfl : a = b := Option.some.inj (hroom.writer.symm.trans hb)
    refine ⟨block', by simp, ?_⟩
    rw [hblock]
    exact hfull
  · intro b hb
    rw [haddresses]
    exact hroom.reader b hb
  · rw [hblock]
    exact htake
  · rw [hblock]
  · rw [hblock]
    dsimp only
    omega
  · unfold room
    dsimp only
    rw [List.getLast?_concat, Option.elim_some, hblock]
    dsimp only
    split
    · next hset =>
      have heq := hfull.mp hset
      omega
    · rfl

/-- What a write did: the first `count` of `n` bytes went in, all of them exactly
    when the allocator granted the blocks for them. -/
structure Wrote (alloc : Alloc) (h h' : MFile) (n count : Nat) (rc : Int) : Prop where
  sound : Sound h'
  solid : Solid h.head → Solid h'.head
  untouched : Untouched h h'
  done : Supplied alloc h n → rc = 1 ∧ count = n ∧ ∀ m, Supplied alloc h (n + m) ↔ Supplied alloc h' m
  short : ¬Supplied alloc h n → rc = -1 ∧ count < n
  started : 0 < n → (h.is_full = true → Granted alloc h.allocs) → 0 < count
  refused : 0 < n → h.is_full = true → ¬Granted alloc h.allocs →
    count = 0 ∧ h'.is_full = true ∧ h'.allocs = after_refusal alloc h.allocs

theorem Wrote.nothing {alloc : Alloc} {h : MFile} (hsound : Sound h) (hsize : 0 < h.DATA_BLOCK_SIZE) :
    Wrote alloc h h 0 0 1 :=
  ⟨hsound, id, Untouched.refl h, fun _ => ⟨rfl, rfl, fun m => by rw [Nat.zero_add]⟩,
    fun hnot => absurd (supplied_zero hsize) hnot, fun hpos => absurd hpos (Nat.lt_irrefl 0),
    fun hpos => absurd hpos (Nat.lt_irrefl 0)⟩

/-- A pass that writes `k` bytes, and what the passes after it did. -/
theorem Wrote.after {alloc : Alloc} {h h₁ h₂ : MFile} {k m count : Nat} {rc : Int} (hpos : 0 < k)
    (hblock : h.is_full = true → Granted alloc h.allocs) (hsolid : Solid h.head → Solid h₁.head)
    (huntouched : Untouched h h₁) (hall : ∀ m, Supplied alloc h (k + m) ↔ Supplied alloc h₁ m)
    (hrest : Wrote alloc h₁ h₂ m count rc) : Wrote alloc h h₂ (k + m) (k + count) rc := by
  refine ⟨hrest.sound, fun h => hrest.solid (hsolid h), huntouched.trans hrest.untouched, ?_, ?_,
    fun _ _ => by omega, fun _ hfull hrefused => absurd (hblock hfull) hrefused⟩
  · intro hsupplied
    obtain ⟨hrc, hcount, hmore⟩ := hrest.done ((hall m).mp hsupplied)
    exact ⟨hrc, by rw [hcount], fun l => by rw [Nat.add_assoc, hall, hmore]⟩
  · intro hnot
    obtain ⟨hrc, hcount⟩ := hrest.short fun hsupplied => hnot ((hall m).mpr hsupplied)
    exact ⟨hrc, by omega⟩

/-- A refused block changes nothing in the queue. -/
theorem Sound.refused {h : MFile} (hsound : Sound h) (alloc : Alloc) (total_size : Int) (freed : List Nat) :
    Sound { h with total_size := total_size, allocs := after_refusal alloc h.allocs, freed := freed } := by
  refine ⟨hsound.nodup, ?_, hsound.block_num, hsound.sized, hsound.unwritten, hsound.writer, hsound.reader⟩
  intro a ha
  have hlt := hsound.fresh a ha
  have hnext := lt_after_refusal alloc h.allocs
  dsimp only
  omega

/-- The write loop writes the rest of the data in chunks until the allocator
    refuses a block. A pass that does not finish fills its block. -/
theorem mwrite_loop_wrote {alloc : Alloc} {data : List UInt8} {n fuel writed : Nat} {h : MFile}
    (hsound : Sound h) (hsize : 0 < h.DATA_BLOCK_SIZE) (hdata : n ≤ data.length)
    (hfuel : n - writed ≤ fuel) :
    ∃ h' rc count, mwrite_loop alloc fuel h data n writed = .ok (h', rc) ∧
      Wrote alloc h h' (n - writed) count rc ∧ Chunks h.head h'.head ((data.drop writed).take count) := by
  induction fuel generalizing h writed with
  | zero =>
    refine ⟨h, 1, 0, ?_, ?_, .nil _⟩
    · unfold mwrite_loop
      rw [if_neg (by omega)]
    · rw [show n - writed = 0 by omega]
      exact Wrote.nothing hsound hsize
  | succ fuel ih =>
    by_cases hdone : n ≤ writed
    · refine ⟨h, 1, 0, ?_, ?_, .nil _⟩
      · unfold mwrite_loop
        rw [if_neg (by omega)]
      · rw [show n - writed = 0 by omega]
        exact Wrote.nothing hsound hsize
    by_cases hblock : h.is_full = true → Granted alloc h.allocs
    · obtain ⟨h₁, pre, a, block, old, hstart, hroom, huntouched, hhead, hwritten, hread, hsupply⟩ :=
        write_block_spec hsound hsize hblock
      obtain ⟨hpre, _⟩ := Tailq.notMem_of_nodup (hroom.head ▸ hroom.nodup)
      have hderef : h₁.head.read h₁.current_write_p = .ok block := by
        rw [hroom.head, hroom.writer]
        exact Tailq.read_split hpre
      have hless := hroom.room
      have hsize₁ := huntouched.size
      have hrest : ((n : Int) - writed).toNat = n - writed := by omega
      have hchunk : ∀ (h₂ : MFile) block₂ bytes, h₂.head = pre ++ [(a, block₂)] →
          block₂.written = block.written ++ bytes →
          block₂.current_read_count = block.current_read_count → Chunk h.head h₂.head bytes := by
        intro h₂ block₂ bytes hhead₂ hwritten₂ hread₂
        exact ⟨pre, a, old, block₂, hhead, hhead₂, by rw [hwritten₂, hwritten], hread₂.trans hread⟩
      have hsolid : ∀ (h₂ : MFile) block₂, h₂.head = pre ++ [(a, block₂)] → 0 < block₂.current_write_count →
          Solid h.head → Solid h₂.head := by
        intro h₂ block₂ hhead₂ hpos hall x hx
        rw [hhead₂] at hx
        rcases List.mem_append.mp hx with hold | hlast
        · exact hall x (by rw [hhead]; exact List.mem_append_left _ hold)
        · obtain rfl : x = (a, block₂) := by simpa using hlast
          exact hpos
      unfold mwrite_loop
      rw [if_pos (by omega)]
      dsimp only
      rw [hstart]
      dsimp only
      rw [hderef, ok_bind, hrest]
      by_cases hfits : n - writed ≤ h₁.DATA_BLOCK_SIZE - block.current_write_count
      · obtain ⟨h₂, block₂, hcopy, hsound₂, huntouched₂, hhead₂, hwritten₂, hread₂, hpos₂, _, hallocs₂, hroom₂⟩ :=
          append_bytes_spec hroom (by omega) (by omega) (by omega : writed + (n - writed) ≤ data.length)
        have hall := hsupply (n - writed) h₂ (by omega) (by omega) (huntouched₂.size.trans hsize₁) hallocs₂
          (by omega)
        have hlast : Wrote alloc h₂ h₂ 0 0 1 := Wrote.nothing hsound₂ (by rw [huntouched₂.size, hsize₁]; exact hsize)
        rw [if_pos hfits, hcopy, ok_bind]
        exact ⟨h₂, 1, n - writed, rfl, hlast.after (by omega) hblock (hsolid h₂ block₂ hhead₂ hpos₂)
          (huntouched.trans huntouched₂) hall, .single (hchunk h₂ block₂ _ hhead₂ hwritten₂ hread₂)⟩
      · obtain ⟨free_count, hfree⟩ : ∃ free_count,
            free_count = h₁.DATA_BLOCK_SIZE - block.current_write_count := ⟨_, rfl⟩
        obtain ⟨h₂, block₂, hcopy, hsound₂, huntouched₂, hhead₂, hwritten₂, hread₂, hpos₂, hfull₂, hallocs₂, hroom₂⟩ :=
          append_bytes_spec hroom (by omega) (by omega) (by omega : writed + free_count ≤ data.length)
        have hall := hsupply free_count h₂ (by omega) (by omega) (huntouched₂.size.trans hsize₁) hallocs₂
          (by omega)
        have hsame : { h₂ with is_full := true } = h₂ := by
          have hflag := hfull₂.mpr (by omega)
          rw [← hflag]
        obtain ⟨h₃, rc, count, hloop, hwrote, hchunks₃⟩ := ih hsound₂
          (by rw [huntouched₂.size, huntouched.size]; exact hsize)
          (by omega : n - (writed + free_count) ≤ fuel)
        have hn : n - writed = free_count + (n - (writed + free_count)) := by omega
        rw [if_neg hfits, ← hfree, hcopy, ok_bind, hsame]
        refine ⟨h₃, rc, free_count + count, hloop, ?_, ?_⟩
        · rw [hn]
          exact hwrote.after (by omega) hblock (hsolid h₂ block₂ hhead₂ hpos₂) (huntouched.trans huntouched₂) hall
        · rw [List.take_add, List.drop_drop]
          exact .cons (hchunk h₂ block₂ _ hhead₂ hwritten₂ hread₂) hchunks₃
    · obtain ⟨hfull, hrefused⟩ := Classical.not_imp.mp hblock
      obtain ⟨freed, hnew⟩ := new_block_refused hrefused
      refine ⟨{ h with allocs := after_refusal alloc h.allocs, freed := freed }, -1, 0, ?_,
        ⟨hsound.refused alloc h.total_size freed, id, ⟨rfl, rfl, rfl, rfl, rfl⟩, ?_, fun _ => ⟨rfl, by omega⟩,
          fun _ h => absurd h hblock, fun _ _ _ => ⟨rfl, hfull, rfl⟩⟩, .nil _⟩
      · unfold mwrite_loop
        rw [if_pos (by omega)]
        unfold write_block
        rw [if_pos hfull, hnew]
      · intro hsupplied
        exact absurd hsupplied (not_supplied_of_refused hsize hfull hrefused (by omega))

/-- A write of any length that the caller's buffer covers. -/
theorem mwrite_wrote (alloc : Alloc) {data : List UInt8} {len : Int} {h : MFile} (hsound : Sound h)
    (hsize : 0 < h.DATA_BLOCK_SIZE) (hdata : len ≤ data.length) :
    ∃ h' rc count, mwrite alloc h data len = .ok (h', rc) ∧
      Wrote alloc { h with total_size := h.total_size + len } h' len.toNat count rc ∧
      Chunks h.head h'.head (data.take count) := by
  obtain ⟨nodup, fresh, block_num, sized, unwritten, writer, reader⟩ := hsound
  have hstart : Sound { h with total_size := h.total_size + len } :=
    ⟨nodup, fresh, block_num, sized, unwritten, writer, reader⟩
  by_cases hnonneg : 0 ≤ len
  · obtain ⟨n, rfl⟩ := Int.eq_ofNat_of_zero_le hnonneg
    obtain ⟨h', rc, count, hloop, hwrote, hchunks⟩ :=
      mwrite_loop_wrote hstart hsize (by omega : n ≤ data.length) (by omega : n - 0 ≤ (n : Int).toNat)
    exact ⟨h', rc, count, hloop, hwrote, hchunks⟩
  · refine ⟨{ h with total_size := h.total_size + len }, 1, 0, ?_, ?_, .nil _⟩
    · unfold mwrite mwrite_loop
      rw [if_neg (by omega)]
    · rw [show len.toNat = 0 by omega]
      exact Wrote.nothing hstart hsize

/-- A write that the caller's buffer covers succeeds and adds its bytes behind
    all others. -/
theorem mwrite_spec {alloc : Alloc} (halloc : ∀ n, (alloc n).isSome) {data : List UInt8} {n : Nat}
    {h : MFile} (hlayout : Layout h) (hsize : 0 < h.DATA_BLOCK_SIZE) (hdata : n ≤ data.length) :
    ∃ h', mwrite alloc h data n = .ok (h', 1) ∧ Layout h' ∧
      Untouched { h with total_size := h.total_size + n } h' ∧
      Chunks h.head h'.head (data.take n) := by
  obtain ⟨hsound, hsolid⟩ := layout_iff.mp hlayout
  obtain ⟨h', rc, count, hwrite, hwrote, hchunks⟩ :=
    mwrite_wrote alloc hsound hsize (by omega : (n : Int) ≤ data.length)
  obtain ⟨rfl, rfl, _⟩ := hwrote.done (supplied_of_forall halloc _ _)
  exact ⟨h', hwrite, layout_iff.mpr ⟨hwrote.sound, hwrote.solid hsolid⟩, hwrote.untouched, hchunks⟩

/-- A head write that fits a block, of no bytes even, puts them in a new block
    before all others; the writer's block stays last. -/
theorem mwrite_head_granted {alloc : Alloc} {data : List UInt8} {n : Nat} {h : MFile} (hsound : Sound h)
    (hgranted : Granted alloc h.allocs) (hfits : n ≤ h.DATA_BLOCK_SIZE) (hdata : n ≤ data.length) :
    ∃ h' block, mwrite_head alloc h data n = .ok (h', 1) ∧ Sound h' ∧
      h'.head = (h.allocs, block) :: h.head ∧ block.written = data.take n ∧
      block.current_write_count = n ∧ h'.total_size = h.total_size + n ∧
      h'.new_header_size = (h.new_header_size + n) % 2 ^ 32 ∧
      h'.DATA_BLOCK_SIZE = h.DATA_BLOCK_SIZE := by
  obtain ⟨block, hnew, hwrite, _, _, hlength⟩ :=
    new_block_granted (h := { h with total_size := h.total_size + n }) hgranted
  dsimp only at hnew hlength
  have hbytes : (data.take n).length = n := by
    rw [List.length_take]
    omega
  obtain ⟨buffer, hblit, hbuffer, htake⟩ := blit_spec
    (by rw [hbytes]; omega : 0 + (data.take n).length ≤ block.data.length)
  rw [hbytes, List.take_zero, List.nil_append, Nat.zero_add] at htake
  obtain ⟨block', hblock⟩ : ∃ block' : DataBlock, block' =
      { block with data := buffer, current_write_count := n, data_len := n } := ⟨_, rfl⟩
  have hnot : h.allocs ∉ Tailq.addresses h.head := fun hmem => Nat.lt_irrefl _ (hsound.fresh _ hmem)
  refine ⟨{ h with total_size := h.total_size + n, allocs := h.allocs + 2, block_num := h.block_num + 1,
                   new_header_size := (h.new_header_size + n) % 2 ^ 32,
                   head := (h.allocs, block') :: h.head }, block', ?_,
    ⟨?_, ?_, ?_, ?_, hsound.unwritten, ?_, ?_⟩, rfl, ?_, by rw [hblock], rfl, rfl, rfl⟩
  · unfold mwrite_head
    rw [if_neg (by omega), hnew]
    dsimp only
    rw [if_neg (by omega), Int.toNat_natCast, slice_eq (by omega), ok_bind, List.drop_zero, hblit, ok_bind,
      hblock]
  · exact List.nodup_cons.mpr ⟨hnot, hsound.nodup⟩
  · intro a ha
    show a < h.allocs + 2
    rcases List.mem_cons.mp ha with rfl | hold
    · exact Nat.lt_add_of_pos_right (by decide)
    · have hlt := hsound.fresh a hold
      omega
  · show h.block_num + 1 = h.head.length + 1
    rw [hsound.block_num]
  · intro x hx
    rcases List.mem_cons.mp hx with rfl | hold
    · rw [hblock]
      exact ⟨rfl, hfits, hbuffer.trans hlength⟩
    · exact hsound.sized x hold
  · intro a ha
    obtain ⟨last, hlast, hiff⟩ := hsound.writer a ha
    refine ⟨last, ?_, hiff⟩
    show ((h.allocs, block') :: h.head).getLast? = _
    rw [List.getLast?_cons, hlast, Option.getD_some]
  · intro a ha
    exact List.mem_cons_of_mem _ (hsound.reader a ha)
  · rw [hblock]
    exact htake

/-- Without a block for it a head write changes the size and nothing else that
    is stored. -/
theorem mwrite_head_refused {alloc : Alloc} (data : List UInt8) {len : Int} {h : MFile} (hsound : Sound h)
    (hrefused : ¬Granted alloc h.allocs) (hfits : len ≤ h.DATA_BLOCK_SIZE) :
    ∃ h', mwrite_head alloc h data len = .ok (h', -1) ∧ Sound h' ∧ h'.head = h.head ∧
      h'.total_size = h.total_size + len ∧ h'.new_header_size = h.new_header_size ∧
      h'.block_num = h.block_num ∧ h'.DATA_BLOCK_SIZE = h.DATA_BLOCK_SIZE := by
  obtain ⟨freed, hnew⟩ := new_block_refused (h := { h with total_size := h.total_size + len }) hrefused
  dsimp only at hnew
  refine ⟨{ h with total_size := h.total_size + len, allocs := after_refusal alloc h.allocs, freed := freed },
    ?_, hsound.refused alloc (h.total_size + len) freed, rfl, rfl, rfl, rfl, rfl⟩
  unfold mwrite_head
  rw [if_neg (by omega), hnew]

/-- A head write that fits a block puts its bytes in a new block before all
    others; the writer's block stays last. -/
theorem mwrite_head_spec {alloc : Alloc} (halloc : ∀ n, (alloc n).isSome) {data : List UInt8} {n : Nat}
    {h : MFile} (hlayout : Layout h) (hpos : 0 < n) (hfits : n ≤ h.DATA_BLOCK_SIZE)
    (hdata : n ≤ data.length) :
    ∃ h' block, mwrite_head alloc h data n = .ok (h', 1) ∧ Layout h' ∧
      h'.head = (h.allocs, block) :: h.head ∧ block.written = data.take n ∧
      h'.total_size = h.total_size + n ∧
      h'.new_header_size = (h.new_header_size + n) % 2 ^ 32 ∧
      h'.DATA_BLOCK_SIZE = h.DATA_BLOCK_SIZE := by
  obtain ⟨hsound, hsolid⟩ := layout_iff.mp hlayout
  obtain ⟨h', block, hwrite, hsound', hhead, hwritten, hcount, htotal, hheads, hsame⟩ :=
    mwrite_head_granted hsound (⟨halloc _, halloc _⟩ : Granted alloc h.allocs) hfits hdata
  refine ⟨h', block, hwrite, layout_iff.mpr ⟨hsound', fun x hx => ?_⟩, hhead, hwritten, htotal, hheads, hsame⟩
  rw [hhead] at hx
  rcases List.mem_cons.mp hx with rfl | hold
  · rw [hcount]
    exact hpos
  · exact hsolid x hold

end code_tools.mfile
