import CodeTools.MFile.Reading

/-!
# What the reader has before it

A reader goes on from block to block until it meets one with nothing unread, or
the end. What it has before it is a function of the blocks from its own on.
-/

namespace code_tools.mfile

open cmem

/-- What is read from a queue of blocks before one with nothing unread. -/
def ahead : Tailq DataBlock → List UInt8
  | [] => []
  | x :: q =>
    if x.2.current_read_count < x.2.current_write_count then
      x.2.written.drop x.2.current_read_count ++ ahead q
    else []

theorem ahead_cons_pos {x : Nat × DataBlock} {q : Tailq DataBlock}
    (hmore : x.2.current_read_count < x.2.current_write_count) :
    ahead (x :: q) = x.2.written.drop x.2.current_read_count ++ ahead q := by
  rw [ahead, if_pos hmore]

theorem ahead_cons_neg {x : Nat × DataBlock} {q : Tailq DataBlock}
    (hdry : x.2.current_write_count ≤ x.2.current_read_count) : ahead (x :: q) = [] := by
  rw [ahead, if_neg (by omega)]

/-- Blocks that were not read are read whole. -/
theorem ahead_eq_contents {q : Tailq DataBlock} (hsolid : Solid q)
    (hunread : ∀ x ∈ q, x.2.current_read_count = 0) : ahead q = contents q := by
  induction q with
  | nil => rfl
  | cons x q ih =>
    have hpos := hsolid x List.mem_cons_self
    have hzero := hunread x List.mem_cons_self
    rw [ahead_cons_pos (by omega), hzero, List.drop_zero, contents_cons,
      ih (fun y hy => hsolid y (List.mem_cons_of_mem x hy)) fun y hy => hunread y (List.mem_cons_of_mem x hy)]

theorem Solid.of_same {h h' : MFile} (hsolid : Solid h.head) (hsame : SameStore h h') : Solid h'.head := by
  intro x hx
  obtain ⟨y, hy, _, _, _, hwrite⟩ := hsame.block hx
  rw [← hwrite]
  exact hsolid y hy

/-- No block was read beyond what was written. -/
def Within (q : Tailq DataBlock) : Prop := ∀ x ∈ q, x.2.current_read_count ≤ x.2.current_write_count

/-! ## The place of the reader -/

/-- The reader's pointer is at `block`, and no block behind it was read. -/
structure Place (h : MFile) (pre : Tailq DataBlock) (a : Nat) (block : DataBlock)
    (post : Tailq DataBlock) : Prop where
  sound : Sound h
  pointer : h.current_read_p = some a
  head : h.head = pre ++ (a, block) :: post
  le : block.current_read_count ≤ block.current_write_count
  later : ∀ x ∈ post, x.2.current_read_count = 0

section

variable {h : MFile} {pre post : Tailq DataBlock} {a : Nat} {block : DataBlock}

theorem Place.sized (hplace : Place h pre a block post) : block.Sized h.DATA_BLOCK_SIZE :=
  hplace.sound.sized (a, block) (by simp [hplace.head])

theorem Place.notMem (hplace : Place h pre a block post) : a ∉ Tailq.addresses pre := by
  have hnodup := hplace.sound.nodup
  rw [hplace.head] at hnodup
  exact (Tailq.notMem_of_nodup hnodup).1

theorem Place.read (hplace : Place h pre a block post) : h.head.read h.current_read_p = .ok block := by
  rw [hplace.head, hplace.pointer]
  exact Tailq.read_split hplace.notMem

/-- The blocks that the next pass of a reader looks at. -/
def coming (is_empty : Bool) (a : Nat) (block : DataBlock) (post : Tailq DataBlock) : Tailq DataBlock :=
  if is_empty then post else (a, block) :: post

/-- Taking `count` unread bytes of the current block. -/
theorem Place.consume (hplace : Place h pre a block post) {count : Nat}
    (hcount : block.current_read_count + count ≤ block.current_write_count) :
    SameStore h (consume h block count) ∧ Place (consume h block count) pre a
      { block with current_read_count := block.current_read_count + count } post ∧
      (Within h.head → Within (consume h block count).head) := by
  obtain ⟨hsame, hsound⟩ := hplace.sound.consume block count
  have hhead := consume_split hplace.head hplace.sound.nodup hplace.pointer count
  refine ⟨hsame, ⟨hsound, hplace.pointer, hhead, hcount, hplace.later⟩, fun hwithin x hx => ?_⟩
  rw [hhead] at hx
  rcases List.mem_append.mp hx with hpre | hx
  · exact hwithin x (by rw [hplace.head]; exact List.mem_append_left _ hpre)
  rcases List.mem_cons.mp hx with rfl | hpost
  · exact hcount
  · exact hwithin x (by rw [hplace.head]; exact List.mem_append_right _ (List.mem_cons_of_mem _ hpost))

/-- A pass begins at the end of the queue, or in the first block that is coming. -/
theorem Place.advance (hplace : Place h pre a block post) :
    (read_advance h = .ok none ∧ h.is_empty = true ∧ post = []) ∨
      ∃ h₁ pre₁ a₁ block₁ post₁, read_advance h = .ok (some h₁) ∧ Place h₁ pre₁ a₁ block₁ post₁ ∧
        SameStore h h₁ ∧ h₁.is_empty = h.is_empty ∧ h₁.head = h.head ∧
          coming h.is_empty a block post = (a₁, block₁) :: post₁ := by
  rw [read_advance_split hplace.head hplace.notMem hplace.pointer]
  unfold coming
  by_cases hempty : h.is_empty = true
  · rw [if_pos hempty, if_pos hempty]
    cases hpost : post with
    | nil => exact Or.inl ⟨rfl, hempty, rfl⟩
    | cons x rest =>
      right
      have hmem : x ∈ h.head := by simp [hplace.head, hpost]
      have hzero := hplace.later x (by simp [hpost])
      refine ⟨{ h with current_read_p := some x.1 }, pre ++ [(a, block)], x.1, x.2, rest, rfl,
        ⟨hplace.sound.seek_to (List.mem_map_of_mem hmem), rfl, ?_, by omega, ?_⟩,
        SameStore.reader h (some x.1) h.is_empty, rfl, rfl, rfl⟩
      · simp [hplace.head, hpost]
      · intro y hy
        exact hplace.later y (by simp [hpost, hy])
  · rw [if_neg hempty, if_neg hempty]
    exact Or.inr ⟨h, pre, a, block, post, rfl, hplace, SameStore.refl h, rfl, rfl, rfl⟩

/-- Where no block is empty, the block that comes has unread bytes. -/
theorem Place.fresh (hplace : Place h pre a block post) (hsolid : Solid h.head)
    (hmore : h.is_empty = false → block.current_read_count < block.current_write_count) {a₁ : Nat}
    {block₁ : DataBlock} {post₁ : Tailq DataBlock} (hcoming : coming h.is_empty a block post = (a₁, block₁) :: post₁) :
    block₁.current_read_count < block₁.current_write_count := by
  cases hempty : h.is_empty with
  | true =>
    rw [hempty] at hcoming
    have hpost : post = (a₁, block₁) :: post₁ := hcoming
    have hzero := hplace.later (a₁, block₁) (by rw [hpost]; exact List.mem_cons_self)
    have hpos := hsolid (a₁, block₁) (by rw [hplace.head, hpost]; simp)
    dsimp only at hzero hpos
    omega
  | false =>
    rw [hempty] at hcoming
    obtain ⟨rfl, rfl⟩ := Prod.mk.inj (List.cons.inj hcoming).1
    exact hmore hempty

/-- The bytes taken are the first of those ahead, and the others stay ahead. -/
theorem Place.taken (hplace : Place h pre a block post) {count : Nat}
    (hcount : block.current_read_count + count ≤ block.current_write_count)
    (hmore : block.current_read_count < block.current_write_count) :
    (block.data.drop block.current_read_count).take count = (ahead ((a, block) :: post)).take count ∧
      ahead (coming (decide (block.current_read_count + count = block.current_write_count)) a
        { block with current_read_count := block.current_read_count + count } post) =
          (ahead ((a, block) :: post)).drop count := by
  have hlen := hplace.sized.length_written
  rw [ahead_cons_pos hmore]
  constructor
  · rw [List.take_append_of_le_length (by rw [List.length_drop]; dsimp only; omega)]
    dsimp only
    rw [DataBlock.written, List.drop_take, List.take_take, Nat.min_eq_left (by omega)]
  · rw [List.drop_append_of_le_length (by rw [List.length_drop]; dsimp only; omega), List.drop_drop]
    unfold coming
    by_cases hall : block.current_read_count + count = block.current_write_count
    · rw [if_pos (decide_eq_true hall), List.drop_of_length_le (by dsimp only; omega), List.nil_append]
    · rw [if_neg (by simpa using hall), ahead_cons_pos (by dsimp only; omega)]
      rfl

/-- Taking all unread bytes of the current block leaves what its followers hold,
    and the block counts as empty. -/
theorem Place.drain (hplace : Place h pre a block post) {count : Nat}
    (hcount : count = block.current_write_count - block.current_read_count)
    (hmore : block.current_read_count < block.current_write_count) {todo : List UInt8}
    (htodo : todo = ahead ((a, block) :: post)) :
    slice block.data block.current_read_count count = .ok (todo.take count) ∧ count ≤ todo.length ∧
      todo.drop count = ahead post ∧
      { mfile.consume h block count with is_empty := true } = mfile.consume h block count ∧
      (mfile.consume h block count).is_empty = true := by
  have hle := hplace.sized.le
  have hbuffer := hplace.sized.length
  have hall : block.current_read_count + count = block.current_write_count := by omega
  obtain ⟨hbytes, hleft⟩ := hplace.taken (Nat.le_of_eq hall) hmore
  have hset : (mfile.consume h block count).is_empty = true := decide_eq_true hall
  rw [decide_eq_true hall, ← htodo] at hleft
  rw [← htodo] at hbytes
  refine ⟨by rw [slice_eq (by omega), hbytes], ?_, hleft.symm, by rw [← hset], hset⟩
  have hlength := congrArg List.length hbytes
  rw [List.length_take, List.length_take, List.length_drop] at hlength
  omega

/-! ## Reading a number of bytes -/

/-- What a read of `k` bytes leaves of the `todo` that the reader at `block` had
    ahead. It stops short only when nothing is ahead, and where no block is empty it
    is right about what is left. -/
structure Took (h : MFile) (block : DataBlock) (todo : List UInt8) (k : Nat) (h' : MFile)
    (pre' : Tailq DataBlock) (a' : Nat) (block' : DataBlock) (post' : Tailq DataBlock) : Prop where
  same : SameStore h h'
  place : Place h' pre' a' block' post'
  drained : (h.is_empty = true → block.current_read_count = block.current_write_count) →
    h'.is_empty = true → block'.current_read_count = block'.current_write_count
  left : Solid h.head ∨ k ≤ todo.length → ahead (coming h'.is_empty a' block' post') = todo.drop k
  alert : Solid h.head → (h.is_empty = false → block.current_read_count < block.current_write_count) →
    h'.is_empty = false → block'.current_read_count < block'.current_write_count
  within : Within h.head → Within h'.head

/-- A reader that stays where it is. -/
theorem Place.took_nothing (hplace : Place h pre a block post) {todo : List UInt8}
    (htodo : todo = ahead (coming h.is_empty a block post)) {k : Nat} (hk : todo.drop k = todo) :
    Took h block todo k h pre a block post :=
  ⟨SameStore.refl h, hplace, id, fun _ => by rw [hk, htodo], fun _ => id, id⟩

variable {h₁ : MFile} {pre₁ post₁ : Tailq DataBlock} {a₁ : Nat} {block₁ : DataBlock}

/-- A pass that meets a block with nothing unread. -/
theorem Place.took_dry (hplace : Place h pre a block post) (hplace₁ : Place h₁ pre₁ a₁ block₁ post₁)
    (hsame₁ : SameStore h h₁) (hflag : h₁.is_empty = h.is_empty) (hhead₁ : h₁.head = h.head)
    (hcoming : coming h.is_empty a block post = (a₁, block₁) :: post₁)
    (hdry : block₁.current_write_count ≤ block₁.current_read_count) {k : Nat} (hk : 0 < k) :
    Took h block [] k h₁ pre₁ a₁ block₁ post₁ := by
  have hle₁ := hplace₁.le
  -- a block that was only just reached is not dry unless it is empty
  have hstood : Solid h.head → h.is_empty = false := by
    intro hsolid
    by_contra hempty
    have hfresh := hplace.fresh hsolid (fun hfalse => absurd hfalse hempty) hcoming
    omega
  refine ⟨hsame₁, hplace₁, fun _ _ => by omega, ?_, ?_, by rw [hhead₁]; exact id⟩
  · rintro (hsolid | hshort)
    · rw [hflag, hstood hsolid, List.drop_nil]
      exact ahead_cons_neg hdry
    · rw [List.length_nil] at hshort
      omega
  · intro hsolid halert _
    have hempty := hstood hsolid
    rw [hempty] at hcoming
    obtain ⟨rfl, rfl⟩ := Prod.mk.inj (List.cons.inj hcoming).1
    exact halert hempty

/-- A pass that finds all it wants in one block. -/
theorem Place.took_part (hplace₁ : Place h₁ pre₁ a₁ block₁ post₁) (hsame₁ : SameStore h h₁)
    (hhead₁ : h₁.head = h.head) (hmore : block₁.current_read_count < block₁.current_write_count)
    {todo : List UInt8} (htodo : todo = ahead ((a₁, block₁) :: post₁)) {k : Nat}
    (hk : block₁.current_read_count + k ≤ block₁.current_write_count) :
    Took h block todo k (mfile.consume h₁ block₁ k) pre₁ a₁
      { block₁ with current_read_count := block₁.current_read_count + k } post₁ := by
  subst htodo
  obtain ⟨hsame₂, hplace₂, hwithin₂⟩ := hplace₁.consume hk
  refine ⟨hsame₁.trans hsame₂, hplace₂, fun _ => of_decide_eq_true, fun _ => (hplace₁.taken hk hmore).2, ?_,
    by rw [← hhead₁]; exact hwithin₂⟩
  intro _ _ hfalse
  have hne := of_decide_eq_false hfalse
  dsimp only
  omega

/-- A pass that takes all the unread bytes of a block, and the passes after it. -/
theorem Took.after_drain {h' : MFile} {pre' post' : Tailq DataBlock} {a' : Nat} {block' : DataBlock}
    {todo : List UInt8} {count k : Nat} (hplace₁ : Place h₁ pre₁ a₁ block₁ post₁) (hsame₁ : SameStore h h₁)
    (hhead₁ : h₁.head = h.head) (hall : block₁.current_read_count + count = block₁.current_write_count)
    (hcount : count ≤ k)
    (hrest : Took (mfile.consume h₁ block₁ count)
      { block₁ with current_read_count := block₁.current_read_count + count } (todo.drop count) (k - count)
      h' pre' a' block' post') :
    Took h block todo k h' pre' a' block' post' := by
  obtain ⟨hsame₂, _, hwithin₂⟩ := hplace₁.consume (Nat.le_of_eq hall)
  have hsame := hsame₁.trans hsame₂
  have hset : (mfile.consume h₁ block₁ count).is_empty = true := decide_eq_true hall
  refine ⟨hsame.trans hrest.same, hrest.place, fun _ => hrest.drained fun _ => hall, ?_, ?_,
    fun h => hrest.within (hwithin₂ (by rw [hhead₁]; exact h))⟩
  · intro hright
    rw [hrest.left, List.drop_drop, Nat.add_sub_cancel' hcount]
    refine hright.imp (fun hsolid => hsolid.of_same hsame) fun hk => ?_
    rw [List.length_drop]
    omega
  · intro hsolid _
    apply hrest.alert (hsolid.of_same hsame)
    intro hfalse
    rw [hset] at hfalse
    cases hfalse

end

/-- The read loop takes what is ahead in order. -/
theorem mread_loop_ahead {fuel : Nat} {h : MFile} {len : Int} {out todo : List UInt8}
    {pre post : Tailq DataBlock} {a : Nat} {block : DataBlock} (hplace : Place h pre a block post)
    (htodo : todo = ahead (coming h.is_empty a block post)) {k : Nat} (hk : k = (len - out.length).toNat)
    (hfuel : len ≤ out.length + fuel) :
    ∃ h' pre' a' block' post', mread_loop fuel h len out = .ok (h', out ++ todo.take k) ∧
      Took h block todo k h' pre' a' block' post' := by
  induction fuel generalizing h out todo pre a block post k with
  | zero =>
    obtain rfl : k = 0 := by omega
    refine ⟨h, pre, a, block, post, ?_, hplace.took_nothing htodo List.drop_zero⟩
    unfold mread_loop
    rw [if_neg (by omega), List.take_zero, List.append_nil]
  | succ fuel ih =>
    unfold mread_loop
    by_cases hmore : (out.length : Int) < len
    · rw [if_pos hmore]
      dsimp only
      rcases hplace.advance with ⟨hnone, hempty, hpost⟩ |
        ⟨h₁, pre₁, a₁, block₁, post₁, hnext, hplace₁, hsame₁, hflag, hhead₁, hcoming⟩
      · obtain rfl : todo = [] := by
          rw [htodo, hempty, hpost]
          rfl
        rw [hnone, ok_bind, List.take_nil, List.append_nil]
        exact ⟨h, pre, a, block, post, rfl, hplace.took_nothing htodo List.drop_nil⟩
      · rw [hcoming] at htodo
        have hle := hplace₁.sized.le
        have hbuffer := hplace₁.sized.length
        rw [hnext, ok_bind]
        dsimp only
        rw [hplace₁.read, ok_bind]
        by_cases hdry : block₁.current_write_count ≤ block₁.current_read_count
        · obtain rfl : todo = [] := by rw [htodo, ahead_cons_neg hdry]
          rw [if_pos hdry, List.take_nil, List.append_nil]
          exact ⟨h₁, pre₁, a₁, block₁, post₁, rfl,
            hplace.took_dry hplace₁ hsame₁ hflag hhead₁ hcoming hdry (by omega)⟩
        · rw [if_neg hdry, ← hk]
          by_cases hlast : k ≤ block₁.current_write_count - block₁.current_read_count
          · have hwithin : block₁.current_read_count + k ≤ block₁.current_write_count := by omega
            obtain ⟨hbytes, _⟩ := hplace₁.taken hwithin (by omega)
            rw [if_pos hlast, slice_eq (by omega), ok_bind, hbytes, ← htodo]
            exact ⟨_, pre₁, a₁, _, post₁, rfl, hplace₁.took_part hsame₁ hhead₁ (by omega) htodo hwithin⟩
          · obtain ⟨count, hcount⟩ : ∃ count,
                count = block₁.current_write_count - block₁.current_read_count := ⟨_, rfl⟩
            have hall : block₁.current_read_count + count = block₁.current_write_count := by omega
            obtain ⟨_, hplace₂, _⟩ := hplace₁.consume (Nat.le_of_eq hall)
            obtain ⟨hslice, hthere, hleft, hflagged, hset⟩ := hplace₁.drain hcount (by omega) htodo
            have hlength : (todo.take count).length = count := List.length_take_of_le hthere
            rw [if_neg hlast, ← hcount, hslice, ok_bind, hflagged]
            have htodo₂ : todo.drop count = ahead (coming (mfile.consume h₁ block₁ count).is_empty a₁
                { block₁ with current_read_count := block₁.current_read_count + count } post₁) := by
              rw [hset]
              exact hleft
            obtain ⟨h', pre', a', block', post', hloop, hrest⟩ := ih hplace₂ htodo₂
              (by rw [List.length_append, hlength]; omega :
                k - count = (len - ((out ++ todo.take count).length : Int)).toNat)
              (by rw [List.length_append, hlength]; omega)
            have hfits : count ≤ k := by omega
            refine ⟨h', pre', a', block', post', ?_, hrest.after_drain hplace₁ hsame₁ hhead₁ hall hfits⟩
            rw [hloop, List.append_assoc, ← List.take_add, Nat.add_sub_cancel' hfits]
    · obtain rfl : k = 0 := by omega
      rw [if_neg hmore, List.take_zero, List.append_nil]
      exact ⟨h, pre, a, block, post, rfl, hplace.took_nothing htodo List.drop_zero⟩

/-! ## What a handle has ahead -/

/-- The reader has `todo` before it. A block that counts as empty was read to
    its end. -/
structure Faces (h : MFile) (todo : List UInt8) : Prop where
  sound : Sound h
  unstarted : h.current_read_p = none →
    h.is_empty = false ∧ (∀ x ∈ h.head, x.2.current_read_count = 0) ∧ todo = ahead h.head
  started : ∀ a, h.current_read_p = some a → ∃ pre block post, Place h pre a block post ∧
    (h.is_empty = true → block.current_read_count = block.current_write_count) ∧
    todo = ahead (coming h.is_empty a block post)

/-- A block that does not count as empty has unread bytes. -/
def Alert (h : MFile) : Prop := ∀ block, h.head.read h.current_read_p = .ok block → h.is_empty = false →
  block.current_read_count < block.current_write_count

theorem Place.alert {h : MFile} {pre post : Tailq DataBlock} {a : Nat} {block : DataBlock}
    (hplace : Place h pre a block post) :
    Alert h ↔ (h.is_empty = false → block.current_read_count < block.current_write_count) := by
  constructor
  · intro halert
    exact halert block hplace.read
  · intro hmore other hother
    obtain rfl := Except.ok.inj (hplace.read.symm.trans hother)
    exact hmore

/-- Where the reader stands once it has started. -/
theorem Faces.start {h : MFile} {todo : List UInt8} (hfaces : Faces h todo) {a : Nat}
    (hstart : read_start h = some a) :
    ∃ pre block post, Place { h with current_read_p := some a } pre a block post ∧
      (h.is_empty = true → block.current_read_count = block.current_write_count) ∧
      todo = ahead (coming h.is_empty a block post) ∧
      (Solid h.head → Alert h → h.is_empty = false → block.current_read_count < block.current_write_count) := by
  have hsound := hfaces.sound.read_start hstart
  unfold read_start at hstart
  cases hp : h.current_read_p with
  | none =>
    obtain ⟨hflag, hunread, htodo⟩ := hfaces.unstarted hp
    rw [hp, Option.isNone_none, if_pos rfl] at hstart
    obtain ⟨x, hx, rfl⟩ := Option.map_eq_some_iff.mp hstart
    obtain ⟨rest, hhead⟩ := List.head?_eq_some_iff.mp hx
    have hzero := hunread x (by simp [hhead])
    refine ⟨[], x.2, rest, ⟨hsound, rfl, hhead, by omega, ?_⟩, ?_, ?_, ?_⟩
    · intro y hy
      exact hunread y (by simp [hhead, hy])
    · rw [hflag]
      exact nofun
    · rw [htodo, hhead, hflag]
      rfl
    · intro hsolid _ _
      have hpos := hsolid x (by simp [hhead])
      omega
  | some b =>
    rw [hp, Option.isNone_some] at hstart
    obtain rfl : b = a := Option.some.inj hstart
    obtain ⟨pre, block, post, hplace, hdrained, htodo⟩ := hfaces.started b hp
    have hsame : { h with current_read_p := some b } = h := by rw [← hp]
    rw [hsame]
    exact ⟨pre, block, post, hplace, hdrained, htodo, fun _ halert => hplace.alert.mp halert⟩

theorem Place.faces {h : MFile} {pre post : Tailq DataBlock} {a : Nat} {block : DataBlock}
    (hplace : Place h pre a block post)
    (hdrained : h.is_empty = true → block.current_read_count = block.current_write_count) :
    Faces h (ahead (coming h.is_empty a block post)) := by
  refine ⟨hplace.sound, ?_, ?_⟩
  · intro hnone
    rw [hplace.pointer] at hnone
    cases hnone
  · intro b hb
    obtain rfl : a = b := Option.some.inj (hplace.pointer.symm.trans hb)
    exact ⟨pre, block, post, hplace, hdrained, rfl⟩

/-- Without a block there is nothing ahead. -/
theorem Faces.eq_nil {h : MFile} {todo : List UInt8} (hfaces : Faces h todo) (hstart : read_start h = none) :
    h.head = [] ∧ todo = [] := by
  unfold read_start at hstart
  cases hp : h.current_read_p with
  | some a => simp [hp] at hstart
  | none =>
    have hempty : h.head = [] := by simpa [hp, Tailq.first] using hstart
    obtain ⟨_, _, htodo⟩ := hfaces.unstarted hp
    rw [hempty] at htodo
    exact ⟨hempty, htodo⟩

/-- A read returns the first bytes ahead. -/
theorem mread_faces {h : MFile} {todo : List UInt8} (hfaces : Faces h todo) (len : Int) :
    ∃ h', mread h len = .ok
        (h', if h.head = [] then -1 else (todo.take len.toNat).length, todo.take len.toNat) ∧
      SameStore h h' ∧ (Solid h.head ∨ len.toNat ≤ todo.length → Faces h' (todo.drop len.toNat)) ∧
      (Solid h.head → Alert h → Alert h') ∧ (Within h.head → Within h'.head) := by
  unfold mread
  cases hstart : read_start h with
  | none =>
    obtain ⟨hempty, rfl⟩ := hfaces.eq_nil hstart
    refine ⟨h, ?_, SameStore.refl h, fun _ => ?_, fun _ => id, id⟩
    · rw [if_pos hempty, List.take_nil]
    · rwa [List.drop_nil]
  | some a =>
    obtain ⟨pre, block, post, hplace, hdrained, htodo, halert⟩ := hfaces.start hstart
    have hfuel : len ≤ (([] : List UInt8).length : Int) + len.toNat := by
      rw [List.length_nil]
      omega
    have hlen : len.toNat = (len - ([] : List UInt8).length).toNat := by
      rw [List.length_nil]
      omega
    obtain ⟨h', pre', a', block', post', hloop, htook⟩ := mread_loop_ahead hplace htodo hlen hfuel
    have hblocks : h.head ≠ [] := by
      intro hempty
      have hhead : h.head = _ := hplace.head
      simp [hempty] at hhead
    dsimp only
    rw [hloop, ok_bind, List.nil_append, if_neg hblocks]
    refine ⟨h', rfl, (SameStore.reader h (some a) h.is_empty).trans htook.same, ?_, ?_, htook.within⟩
    · intro hright
      rw [← htook.left hright]
      exact htook.place.faces (htook.drained hdrained)
    · intro hsolid hbefore
      exact htook.place.alert.mpr (htook.alert hsolid (halert hsolid hbefore))

/-- `mgetc` takes the first byte ahead. -/
theorem mgetc_faces {h : MFile} {c : UInt8} {todo : List UInt8} (hfaces : Faces h (c :: todo))
    (beyond : UInt8) :
    ∃ h', mgetc h beyond = .ok (h', c) ∧ SameStore h h' ∧ Faces h' todo ∧ Alert h' ∧
      (Within h.head → Within h'.head) := by
  unfold mgetc
  cases hstart : read_start h with
  | none => cases (hfaces.eq_nil hstart).2
  | some a =>
    obtain ⟨pre, block, post, hplace, hdrained, htodo, _⟩ := hfaces.start hstart
    have hsame := SameStore.reader h (some a) h.is_empty
    dsimp only
    rcases hplace.advance with ⟨_, hempty, hpost⟩ |
      ⟨h₁, pre₁, a₁, block₁, post₁, hnext, hplace₁, hsame₁, _, hhead₁, hcoming⟩
    · have hempty : h.is_empty = true := hempty
      rw [hempty, hpost] at htodo
      cases htodo
    · have hcoming : coming h.is_empty a block post = (a₁, block₁) :: post₁ := hcoming
      rw [hcoming] at htodo
      have hmore : block₁.current_read_count < block₁.current_write_count := by
        by_contra hdry
        rw [ahead_cons_neg (by dsimp only; omega)] at htodo
        cases htodo
      have hle := hplace₁.sized.le
      have hbuffer := hplace₁.sized.length
      obtain ⟨hsame₂, hplace₂, hwithin₂⟩ := hplace₁.consume
        (by omega : block₁.current_read_count + 1 ≤ block₁.current_write_count)
      obtain ⟨hbytes, hleft⟩ := hplace₁.taken
        (by omega : block₁.current_read_count + 1 ≤ block₁.current_write_count) hmore
      rw [← htodo, List.drop_succ_cons, List.drop_zero] at hleft
      rw [← htodo, List.take_succ_cons, List.take_zero] at hbytes
      have hbyte : block₁.data.getD block₁.current_read_count beyond = c := by
        have hhead := congrArg List.head? hbytes
        rw [List.head?_take, if_neg (by decide), List.head?_drop, List.head?_cons] at hhead
        rw [List.getD_eq_getElem?_getD, hhead, Option.getD_some]
      rw [hnext, ok_bind]
      dsimp only
      rw [hplace₁.read, ok_bind, hbyte]
      refine ⟨_, rfl, (hsame.trans hsame₁).trans hsame₂, ?_, ?_, ?_⟩
      · rw [← hleft]
        exact hplace₂.faces of_decide_eq_true
      · refine hplace₂.alert.mpr fun hfalse => ?_
        have hne := of_decide_eq_false hfalse
        dsimp only
        omega
      · intro hwithin
        exact hwithin₂ (by rw [hhead₁]; exact hwithin)

/-- At the end `mgetc` returns 0 and takes nothing. -/
theorem mgetc_faces_nil {h : MFile} (hfaces : Faces h []) (hsolid : Solid h.head) (halert : Alert h)
    (beyond : UInt8) : mgetc h beyond = .ok (h, 0) := by
  unfold mgetc
  cases hstart : read_start h with
  | none => rfl
  | some a =>
    obtain ⟨pre, block, post, hplace, hdrained, htodo, hmore⟩ := hfaces.start hstart
    dsimp only
    rcases hplace.advance with ⟨hnone, hempty, _⟩ |
      ⟨h₁, pre₁, a₁, block₁, post₁, hnext, hplace₁, hsame₁, _, hhead₁, hcoming⟩
    · have hempty : h.is_empty = true := hempty
      have hpointer : h.current_read_p = some a := by
        cases hp : h.current_read_p with
        | none =>
          rw [(hfaces.unstarted hp).1] at hempty
          cases hempty
        | some b =>
          unfold read_start at hstart
          rwa [hp, Option.isNone_some, if_neg (by decide)] at hstart
      rw [hnone, ok_bind]
      have hsame : { h with current_read_p := some a } = h := by rw [← hpointer]
      rw [hsame]
    · -- a block that comes has unread bytes, so something would be ahead
      have hcoming : coming h.is_empty a block post = (a₁, block₁) :: post₁ := hcoming
      rw [hcoming] at htodo
      have hfresh := hplace.fresh hsolid (hmore hsolid halert) hcoming
      have hlen := congrArg List.length htodo
      have hwritten := hplace₁.sized.length_written
      rw [ahead_cons_pos hfresh, List.length_append, List.length_drop, List.length_nil] at hlen
      dsimp only at hlen
      omega

end code_tools.mfile
