import CodeTools.MFile.Blocks

/-!
# What reading and seeking leave alone

Readers move their position and the read counts of the blocks. Everything that
writers care about stays.
-/

namespace code_tools.mfile

open cmem

/-- A queue with all read counts cleared. -/
def shelf (q : Tailq DataBlock) : Tailq DataBlock :=
  q.map fun x => (x.1, { x.2 with current_read_count := 0 })

theorem addresses_shelf (q : Tailq DataBlock) : Tailq.addresses (shelf q) = Tailq.addresses q := by
  unfold Tailq.addresses shelf
  rw [List.map_map]
  rfl

theorem contents_shelf (q : Tailq DataBlock) : contents (shelf q) = contents q := by
  unfold contents shelf
  rw [List.map_map]
  rfl

theorem shelf_shelf (q : Tailq DataBlock) : shelf (shelf q) = shelf q := by
  unfold shelf
  rw [List.map_map]
  rfl

theorem shelf_append (q q' : Tailq DataBlock) : shelf (q ++ q') = shelf q ++ shelf q' :=
  List.map_append

/-- The two handles hold the same blocks up to read counts, and agree on all
    that writing looks at. -/
structure SameStore (h h' : MFile) : Prop where
  shelf : shelf h'.head = shelf h.head
  total_size : h'.total_size = h.total_size
  new_header_size : h'.new_header_size = h.new_header_size
  block_num : h'.block_num = h.block_num
  current_write_p : h'.current_write_p = h.current_write_p
  is_full : h'.is_full = h.is_full
  size : h'.DATA_BLOCK_SIZE = h.DATA_BLOCK_SIZE
  allocs : h'.allocs = h.allocs

theorem SameStore.refl (h : MFile) : SameStore h h := ⟨rfl, rfl, rfl, rfl, rfl, rfl, rfl, rfl⟩

/-- The reader's pointer and flag are no part of the store. -/
theorem SameStore.reader (h : MFile) (p : Ptr) (is_empty : Bool) :
    SameStore h { h with current_read_p := p, is_empty := is_empty } :=
  ⟨rfl, rfl, rfl, rfl, rfl, rfl, rfl, rfl⟩

theorem SameStore.trans {h₁ h₂ h₃ : MFile} (h : SameStore h₁ h₂) (h' : SameStore h₂ h₃) :
    SameStore h₁ h₃ :=
  ⟨h'.shelf.trans h.shelf, h'.total_size.trans h.total_size,
    h'.new_header_size.trans h.new_header_size, h'.block_num.trans h.block_num,
    h'.current_write_p.trans h.current_write_p, h'.is_full.trans h.is_full, h'.size.trans h.size,
    h'.allocs.trans h.allocs⟩

theorem SameStore.addresses_eq {h h' : MFile} (hsame : SameStore h h') :
    Tailq.addresses h'.head = Tailq.addresses h.head := by
  rw [← addresses_shelf h'.head, hsame.shelf, addresses_shelf]

theorem SameStore.content_eq {h h' : MFile} (hsame : SameStore h h') : content h' = content h := by
  unfold content
  rw [← contents_shelf h'.head, hsame.shelf, contents_shelf]

/-- Each block of the one handle is a block of the other up to its read count. -/
theorem SameStore.block {h h' : MFile} (hsame : SameStore h h') {x : Nat × DataBlock} (hx : x ∈ h'.head) :
    ∃ y ∈ h.head, y.1 = x.1 ∧ y.2.data_len = x.2.data_len ∧ y.2.data = x.2.data ∧
      y.2.current_write_count = x.2.current_write_count := by
  have hmem : (x.1, { x.2 with current_read_count := 0 }) ∈ mfile.shelf h.head := by
    rw [← hsame.shelf]
    exact List.mem_map_of_mem hx
  obtain ⟨y, hy, heq⟩ := List.mem_map.mp hmem
  simp only [Prod.mk.injEq, DataBlock.mk.injEq] at heq
  obtain ⟨haddress, hdata_len, hdata, _, hwrite, _⟩ := heq
  exact ⟨y, hy, haddress, hdata_len, hdata, hwrite⟩

theorem Sound.of_same {h h' : MFile} (hsound : Sound h) (hsame : SameStore h h')
    (hreader : ∀ a, h'.current_read_p = some a → a ∈ Tailq.addresses h'.head) : Sound h' := by
  have hlength : h'.head.length = h.head.length := by
    have heq := congrArg List.length hsame.shelf
    simpa [mfile.shelf] using heq
  refine ⟨?_, ?_, ?_, ?_, ?_, ?_, hreader⟩
  · rw [hsame.addresses_eq]
    exact hsound.nodup
  · rw [hsame.addresses_eq, hsame.allocs]
    exact hsound.fresh
  · rw [hsame.block_num, hlength]
    exact hsound.block_num
  · intro x hx
    obtain ⟨y, hy, _, hdata_len, hdata, hwrite⟩ := hsame.block hx
    obtain ⟨hlen, hle, hbuffer⟩ := hsound.sized y hy
    rw [hsame.size]
    exact ⟨by omega, by omega, by rw [← hdata]; exact hbuffer⟩
  · rw [hsame.current_write_p, hsame.is_full]
    exact hsound.unwritten
  · intro a ha
    rw [hsame.current_write_p] at ha
    obtain ⟨block, hlast, hiff⟩ := hsound.writer a ha
    have hlast' := congrArg List.getLast? hsame.shelf
    unfold mfile.shelf at hlast'
    rw [List.getLast?_map, List.getLast?_map, hlast, Option.map_some] at hlast'
    obtain ⟨⟨b, block'⟩, hget, heq⟩ := Option.map_eq_some_iff.mp hlast'
    simp only [Prod.mk.injEq, DataBlock.mk.injEq] at heq
    obtain ⟨rfl, _, _, _, hwrite, _⟩ := heq
    refine ⟨block', hget, ?_⟩
    rw [hsame.is_full, hsame.size, hwrite]
    exact hiff

/-- What keeps the store keeps every block as full as it was. -/
theorem Layout.of_same {h h' : MFile} (hlayout : Layout h) (hsame : SameStore h h') (hsound : Sound h') :
    Layout h' := by
  refine layout_iff.mpr ⟨hsound, fun x hx => ?_⟩
  obtain ⟨y, hy, _, _, _, hwrite⟩ := hsame.block hx
  rw [← hwrite]
  exact hlayout.solid y hy

/-! ## One pass of a reader -/

theorem Sound.split {h : MFile} (hsound : Sound h) {a : Nat} (ha : h.current_read_p = some a) :
    ∃ pre block post, h.head = pre ++ (a, block) :: post ∧ a ∉ Tailq.addresses pre ∧
      block.Sized h.DATA_BLOCK_SIZE := by
  obtain ⟨pre, block, post, hhead⟩ := Tailq.split_of_mem (hsound.reader a ha)
  have hnodup := hsound.nodup
  rw [hhead] at hnodup
  refine ⟨pre, block, post, hhead, (Tailq.notMem_of_nodup hnodup).1, ?_⟩
  exact hsound.sized (a, block) (by simp [hhead])

/-- Where a step to the next block leads. -/
theorem read_advance_split {h : MFile} {pre post : Tailq DataBlock} {a : Nat} {block : DataBlock}
    (hhead : h.head = pre ++ (a, block) :: post) (hpre : a ∉ Tailq.addresses pre)
    (ha : h.current_read_p = some a) :
    read_advance h = .ok (if h.is_empty then
      post.head?.map fun x => { h with current_read_p := some x.1 } else some h) := by
  unfold read_advance
  by_cases hempty : h.is_empty = true
  · rw [if_pos hempty, if_pos hempty, hhead, ha, Tailq.next_split hpre, ok_bind]
    cases post with
    | nil => rfl
    | cons x post => rfl
  · rw [if_neg hempty, if_neg hempty]

/-- A step of the reader stays in the queue. -/
theorem Sound.read_advance {h : MFile} (hsound : Sound h) {a : Nat} (ha : h.current_read_p = some a) :
    read_advance h = .ok none ∨
      ∃ b, mfile.read_advance h = .ok (some { h with current_read_p := some b }) ∧
        b ∈ Tailq.addresses h.head := by
  obtain ⟨pre, block, post, hhead, hpre, _⟩ := hsound.split ha
  rw [read_advance_split hhead hpre ha]
  by_cases hempty : h.is_empty = true
  · rw [if_pos hempty]
    cases post with
    | nil => exact Or.inl rfl
    | cons x post =>
      refine Or.inr ⟨x.1, rfl, ?_⟩
      rw [hhead]
      simp [Tailq.addresses]
  · rw [if_neg hempty]
    have hsame : { h with current_read_p := some a } = h := by rw [← ha]
    exact Or.inr ⟨a, by rw [hsame], hsound.reader a ha⟩

theorem consume_split {h : MFile} {pre post : Tailq DataBlock} {a : Nat} {block : DataBlock}
    (hhead : h.head = pre ++ (a, block) :: post) (hnodup : (Tailq.addresses h.head).Nodup)
    (ha : h.current_read_p = some a) (count : Nat) :
    (consume h block count).head = pre ++
      (a, { block with current_read_count := block.current_read_count + count }) :: post := by
  have hmodify := Tailq.modify_split
    (fun block : DataBlock => { block with current_read_count := block.current_read_count + count })
    (hhead ▸ hnodup)
  rw [← hhead] at hmodify
  simp only [consume, ha, Option.elim_some]
  exact hmodify

/-- Read counts are no part of the store. -/
theorem consume_same (h : MFile) (block : DataBlock) (count : Nat) : SameStore h (consume h block count) := by
  refine ⟨?_, rfl, rfl, rfl, rfl, rfl, rfl, rfl⟩
  unfold consume
  cases h.current_read_p with
  | none => rfl
  | some a =>
    simp only [Option.elim_some, shelf, Tailq.modify, List.map_map]
    apply List.map_congr_left
    intro x _
    by_cases hx : x.1 = a <;> simp [hx]

/-- Moving the reader within the queue. -/
theorem Sound.seek_to {h : MFile} (hsound : Sound h) {a : Nat} (ha : a ∈ Tailq.addresses h.head) :
    Sound { h with current_read_p := some a } :=
  hsound.of_same (SameStore.reader h (some a) h.is_empty) fun b hb => by
    obtain rfl : a = b := by simpa using hb
    exact ha

theorem Sound.consume {h : MFile} (hsound : Sound h) (block : DataBlock) (count : Nat) :
    SameStore h (consume h block count) ∧ Sound (mfile.consume h block count) := by
  have hsame := consume_same h block count
  refine ⟨hsame, hsound.of_same hsame fun b hb => ?_⟩
  rw [hsame.addresses_eq]
  exact hsound.reader b hb

/-! ## Whole reads -/

/-- Reading succeeds from every sound layout and leaves the store alone. -/
theorem mread_loop_same {fuel : Nat} {h : MFile} {len : Int} {out : List UInt8} (hsound : Sound h)
    {a : Nat} (ha : h.current_read_p = some a) (hfuel : len ≤ out.length + fuel) :
    ∃ h' out', mread_loop fuel h len out = .ok (h', out') ∧ SameStore h h' ∧ Sound h' := by
  induction fuel generalizing h out a with
  | zero =>
    refine ⟨h, out, ?_, SameStore.refl h, hsound⟩
    unfold mread_loop
    rw [if_neg (by omega)]
  | succ fuel ih =>
    unfold mread_loop
    by_cases hmore : (out.length : Int) < len
    · rw [if_pos hmore]
      dsimp only
      rcases hsound.read_advance ha with hnone | ⟨b, hnext, hb⟩
      · rw [hnone, ok_bind]
        exact ⟨h, out, rfl, SameStore.refl h, hsound⟩
      · obtain ⟨h₁, hh₁⟩ : ∃ h₁, h₁ = { h with current_read_p := some b } := ⟨_, rfl⟩
        have hsound₁ : Sound h₁ := hh₁ ▸ hsound.seek_to hb
        have hb₁ : h₁.current_read_p = some b := by rw [hh₁]
        have hsame₁ : SameStore h h₁ := by
          rw [hh₁]
          exact SameStore.reader h (some b) h.is_empty
        obtain ⟨pre, block, post, hhead, hpre, hsized⟩ := hsound₁.split hb₁
        have hread : h₁.head.read h₁.current_read_p = .ok block := by
          rw [hhead, hb₁]
          exact Tailq.read_split hpre
        have hle := hsized.le
        have hbuffer := hsized.length
        rw [hnext, ← hh₁, ok_bind]
        dsimp only
        rw [hread, ok_bind]
        by_cases hdry : block.current_write_count ≤ block.current_read_count
        · rw [if_pos hdry]
          exact ⟨h₁, out, rfl, hsame₁, hsound₁⟩
        · rw [if_neg hdry]
          by_cases hlast : (len - out.length).toNat ≤ block.current_write_count - block.current_read_count
          · obtain ⟨hsame₂, hsound₂⟩ := hsound₁.consume block (len - out.length).toNat
            rw [if_pos hlast, slice_eq (by omega), ok_bind]
            exact ⟨_, _, rfl, hsame₁.trans hsame₂, hsound₂⟩
          · obtain ⟨hsame₂, hsound₂⟩ := hsound₁.consume block
              (block.current_write_count - block.current_read_count)
            have hflag : SameStore (mfile.consume h₁ block
                (block.current_write_count - block.current_read_count))
                { mfile.consume h₁ block (block.current_write_count - block.current_read_count) with
                  is_empty := true } := SameStore.reader _ _ true
            have hsound₃ := hsound₂.of_same hflag hsound₂.reader
            rw [if_neg hlast, slice_eq (by omega), ok_bind]
            obtain ⟨h', out', hloop, hsame', hsound'⟩ := ih hsound₃ hb₁ (by
              simp only [List.length_append, List.length_take, List.length_drop]
              omega : len ≤ ((out ++ (block.data.drop block.current_read_count).take
                (block.current_write_count - block.current_read_count)).length : Int) + fuel)
            exact ⟨h', out', hloop, ((hsame₁.trans hsame₂).trans hflag).trans hsame', hsound'⟩
    · rw [if_neg hmore]
      exact ⟨h, out, rfl, SameStore.refl h, hsound⟩

theorem Sound.read_start {h : MFile} (hsound : Sound h) {a : Nat} (ha : read_start h = some a) :
    Sound { h with current_read_p := some a } := by
  apply hsound.seek_to
  unfold mfile.read_start at ha
  split at ha
  · unfold Tailq.first at ha
    obtain ⟨x, hx, rfl⟩ := Option.map_eq_some_iff.mp ha
    exact List.mem_map_of_mem (List.mem_of_mem_head? hx)
  · exact hsound.reader a ha

theorem mread_same {h : MFile} (hsound : Sound h) (len : Int) :
    ∃ h' rc bytes, mread h len = .ok (h', rc, bytes) ∧ SameStore h h' ∧ Sound h' := by
  unfold mread
  cases hstart : read_start h with
  | none => exact ⟨h, -1, [], rfl, SameStore.refl h, hsound⟩
  | some a =>
    have hsound₁ := hsound.read_start hstart
    have hfuel : len ≤ (([] : List UInt8).length : Int) + len.toNat := by
      rw [List.length_nil]
      omega
    obtain ⟨h', out', hloop, hsame', hsound'⟩ := mread_loop_same hsound₁ rfl hfuel
    have hsame₁ := SameStore.reader h (some a) h.is_empty
    dsimp only
    rw [hloop, ok_bind]
    exact ⟨h', _, _, rfl, hsame₁.trans hsame', hsound'⟩

theorem mgetc_same {h : MFile} (hsound : Sound h) (beyond : UInt8) :
    ∃ h' c, mgetc h beyond = .ok (h', c) ∧ SameStore h h' ∧ Sound h' := by
  unfold mgetc
  cases hstart : read_start h with
  | none => exact ⟨h, 0, rfl, SameStore.refl h, hsound⟩
  | some a =>
    have hsound₁ := hsound.read_start hstart
    have hsame₁ := SameStore.reader h (some a) h.is_empty
    dsimp only
    rcases hsound₁.read_advance rfl with hnone | ⟨b, hnext, hb⟩
    · rw [hnone, ok_bind]
      exact ⟨_, 0, rfl, hsame₁, hsound₁⟩
    · have hsound₂ := hsound₁.seek_to hb
      obtain ⟨pre, block, post, hhead, hpre, _⟩ := hsound₂.split rfl
      have hread : Tailq.read h.head (some b) = .ok block := by
        rw [hhead]
        exact Tailq.read_split hpre
      obtain ⟨hsame₃, hsound₃⟩ := hsound₂.consume block 1
      have hsame₂ := SameStore.reader h (some b) h.is_empty
      rw [hnext, ok_bind]
      dsimp only
      rw [hread, ok_bind]
      exact ⟨_, _, rfl, hsame₂.trans hsame₃, hsound₃⟩

/-! ## Seeks -/

theorem mseek_store (h : MFile) : SameStore h (mseek h) := ⟨shelf_shelf h.head, rfl, rfl, rfl, rfl, rfl, rfl, rfl⟩

theorem mseek_same {h : MFile} (hsound : Sound h) : SameStore h (mseek h) ∧ Sound (mseek h) :=
  ⟨mseek_store h, hsound.of_same (mseek_store h) fun a ha => by cases ha⟩

theorem seek_loop_same (q : Tailq DataBlock) (pos : Int) :
    shelf (seek_loop q pos).1 = shelf q ∧
      ∀ a, (seek_loop q pos).2 = some a → a ∈ Tailq.addresses q := by
  induction q generalizing pos with
  | nil => exact ⟨rfl, by simp [seek_loop]⟩
  | cons x q ih =>
    obtain ⟨b, block⟩ := x
    unfold seek_loop
    by_cases hstop : pos ≤ block.current_write_count
    · rw [if_pos hstop]
      refine ⟨rfl, fun a ha => ?_⟩
      obtain rfl : b = a := by simpa using ha
      simp [Tailq.addresses]
    · rw [if_neg hstop]
      obtain ⟨hshelf, hmem⟩ := ih (pos - block.current_write_count)
      refine ⟨?_, fun a ha => List.mem_cons_of_mem _ (hmem a ha)⟩
      show _ :: shelf _ = _
      rw [hshelf]
      rfl

theorem mseek_pos_same {h : MFile} (hsound : Sound h) (pos : Int) :
    SameStore h (mseek_pos h pos) ∧ Sound (mseek_pos h pos) := by
  obtain ⟨hsame₁, hsound₁⟩ := mseek_same hsound
  obtain ⟨hshelf, hmem⟩ := seek_loop_same (mseek h).head (if pos < 0 then 0 else pos)
  have hsame₂ : SameStore (mseek h) (mseek_pos h pos) := ⟨hshelf, rfl, rfl, rfl, rfl, rfl, rfl, rfl⟩
  refine ⟨hsame₁.trans hsame₂, hsound₁.of_same hsame₂ fun a ha => ?_⟩
  rw [hsame₂.addresses_eq]
  apply hmem a
  have hp : (if (seek_loop (mseek h).head (if pos < 0 then 0 else pos)).2.isSome then
      (seek_loop (mseek h).head (if pos < 0 then 0 else pos)).2 else none) = some a := ha
  cases hstop : (seek_loop (mseek h).head (if pos < 0 then 0 else pos)).2 with
  | none => simp [hstop] at hp
  | some b => simpa [hstop] using hp

end code_tools.mfile
