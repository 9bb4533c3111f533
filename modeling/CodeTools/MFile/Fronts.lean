import CodeTools.MFile.Calls
import CodeTools.MFile.Readers

/-!
# Handles that differ in their first blocks

Writing looks at the last block only. A reader at a first block that holds
nothing never comes past it.
-/

namespace code_tools.mfile

open cmem machine

/-- What a reader goes by besides the blocks. -/
structure Reader where
  current_read_p : Ptr
  is_empty : Bool
  ccache : UInt8

def MFile.reader (h : MFile) : Reader := ⟨h.current_read_p, h.is_empty, h.ccache⟩

/-- The same blocks stand behind `front` in the one handle and behind `front'` in
    the other. The writer is at none of the first blocks, and all else that
    writing looks at is equal. -/
structure Alike (front front' : Tailq DataBlock) (r r' : Reader) (h k : MFile) : Prop where
  heads : ∃ q, h.head = front ++ q ∧ k.head = front' ++ q ∧ ∀ a ∈ Tailq.addresses q, a ∉ Tailq.addresses front'
  reader : h.reader = r
  reader' : k.reader = r'
  total_size : k.total_size = h.total_size
  current_write_p : k.current_write_p = h.current_write_p
  is_full : k.is_full = h.is_full
  size : k.DATA_BLOCK_SIZE = h.DATA_BLOCK_SIZE
  allocs : k.allocs = h.allocs
  writer : ∀ a, h.current_write_p = some a → a ∉ Tailq.addresses front'
  fresh : ∀ a ∈ Tailq.addresses front', a < h.allocs
  subset : Tailq.addresses front ⊆ Tailq.addresses front'
  nodup : (Tailq.addresses front').Nodup

/-- A block of which `count` more bytes were read. -/
def DataBlock.took (count : Nat) (block : DataBlock) : DataBlock :=
  { block with current_read_count := block.current_read_count + count }

theorem consume_head {h : MFile} {a : Nat} (ha : h.current_read_p = some a) (block : DataBlock) (count : Nat) :
    (consume h block count).head = h.head.modify a (DataBlock.took count) := by
  unfold consume
  rw [ha]
  rfl

namespace Alike

variable {front front' : Tailq DataBlock} {r r' : Reader} {h k : MFile}

/-! ## Writing -/

/-- Whatever calls the allocator answers. -/
theorem asked (halike : Alike front front' r r' h k) (calls : Nat) (freed freed' : List Nat) :
    Alike front front' r r' { h with allocs := h.allocs + calls, freed := freed }
      { k with allocs := k.allocs + calls, freed := freed' } :=
  { halike with
    allocs := congrArg (· + calls) halike.allocs
    fresh := fun a ha => Nat.lt_of_lt_of_le (halike.fresh a ha) (Nat.le_add_right _ calls) }

theorem new_block (halike : Alike front front' r r' h k) (alloc : Alloc) :
    (∃ h₁ k₁, mfile.new_block alloc h = (h₁, none) ∧ mfile.new_block alloc k = (k₁, none) ∧
        Alike front front' r r' h₁ k₁) ∨
      ∃ block, mfile.new_block alloc h = ({ h with allocs := h.allocs + 2 }, some (h.allocs, block)) ∧
        mfile.new_block alloc k = ({ k with allocs := k.allocs + 2 }, some (h.allocs, block)) := by
  have hallocs := halike.allocs
  have hsize := halike.size
  have hrefused := fun calls freed freed' => halike.asked calls freed freed'
  unfold mfile.new_block
  rw [hallocs] at hrefused ⊢
  cases alloc h.allocs with
  | none => exact Or.inl ⟨_, _, rfl, rfl, hrefused 1 h.freed k.freed⟩
  | some junk =>
    cases alloc (h.allocs + 1) with
    | none => exact Or.inl ⟨_, _, rfl, rfl, hrefused 2 (h.freed ++ [h.allocs]) (k.freed ++ [h.allocs])⟩
    | some junk' =>
      dsimp only
      rw [hsize]
      exact Or.inr ⟨_, rfl, rfl⟩

/-- A block behind all others, for the writer. -/
theorem add_block (halike : Alike front front' r r' h k) (block : DataBlock) :
    Alike front front' r r'
      { h with
        allocs := h.allocs + 2, block_num := h.block_num + 1, current_write_p := some h.allocs
        head := h.head ++ [(h.allocs, block)] }
      { k with
        allocs := k.allocs + 2, block_num := k.block_num + 1, current_write_p := some h.allocs
        head := k.head ++ [(h.allocs, block)] } := by
  obtain ⟨q, hhead, hhead', hapart⟩ := halike.heads
  have hnew : h.allocs ∉ Tailq.addresses front' := fun hmem => Nat.lt_irrefl _ (halike.fresh _ hmem)
  refine { halike.asked 2 h.freed k.freed with
    heads := ⟨q ++ [(h.allocs, block)], ?_, ?_, ?_⟩, current_write_p := rfl, writer := ?_ }
  · dsimp only
    rw [hhead, List.append_assoc]
  · dsimp only
    rw [hhead', List.append_assoc]
  · intro a ha
    rw [Tailq.addresses_append] at ha
    rcases List.mem_append.mp ha with hold | hlast
    · exact hapart a hold
    · obtain rfl : a = h.allocs := by simpa [Tailq.addresses] using hlast
      exact hnew
  · intro a ha
    obtain rfl := Option.some.inj ha
    exact hnew

theorem write_block (halike : Alike front front' r r' h k) (alloc : Alloc) :
    ∃ h₁ k₁ found, mfile.write_block alloc h = (h₁, found) ∧ mfile.write_block alloc k = (k₁, found) ∧
      Alike front front' r r' h₁ k₁ := by
  unfold mfile.write_block
  rw [halike.is_full]
  by_cases hfull : h.is_full = true
  · rw [if_pos hfull, if_pos hfull]
    rcases halike.new_block alloc with ⟨h₁, k₁, hh, hk, halike₁⟩ | ⟨block, hh, hk⟩
    · rw [hh, hk]
      exact ⟨h₁, k₁, false, rfl, rfl, halike₁⟩
    · rw [hh, hk]
      exact ⟨_, _, true, rfl, rfl, halike.add_block block⟩
  · rw [if_neg hfull, if_neg hfull]
    exact ⟨h, k, true, rfl, rfl, halike⟩

/-- The writer finds the same block in both handles. -/
theorem writer_block (halike : Alike front front' r r' h k) :
    k.head.read k.current_write_p = h.head.read h.current_write_p := by
  rw [halike.current_write_p]
  cases hp : h.current_write_p with
  | none => rfl
  | some a =>
    obtain ⟨q, hhead, hhead', _⟩ := halike.heads
    have hfront' := halike.writer a hp
    have hfront : a ∉ Tailq.addresses front := fun hmem => hfront' (halike.subset hmem)
    rw [hhead, hhead', Tailq.read_append hfront, Tailq.read_append hfront']

theorem append_bytes (halike : Alike front front' r r' h k) (data : List UInt8) (writed count : Nat) :
    Matched (Alike front front' r r') (mfile.append_bytes h data writed count)
      (mfile.append_bytes k data writed count) := by
  unfold mfile.append_bytes
  rw [halike.writer_block]
  cases hread : h.head.read h.current_write_p with
  | error e => exact .error e
  | ok block =>
    rw [ok_bind, ok_bind]
    cases slice data writed count with
    | error e => exact .error e
    | ok bytes =>
      rw [ok_bind, ok_bind]
      cases blit block.data block.current_write_count bytes with
      | error e => exact .error e
      | ok buffer =>
        obtain ⟨a, hp, _⟩ := Tailq.read_mem hread
        obtain ⟨q, hhead, hhead', hapart⟩ := halike.heads
        have hfront' := halike.writer a hp
        have hfront : a ∉ Tailq.addresses front := fun hmem => hfront' (halike.subset hmem)
        rw [ok_bind, ok_bind, halike.current_write_p, hp, halike.size, hhead, hhead']
        dsimp only [Option.elim_some]
        rw [Tailq.modify_append, Tailq.modify_append, Tailq.modify_of_notMem _ hfront,
          Tailq.modify_of_notMem _ hfront']
        refine .ok { halike with
          heads := ⟨_, rfl, rfl, ?_⟩, current_write_p := rfl, is_full := rfl, size := rfl, writer := ?_ }
        · rw [Tailq.addresses_modify]
          exact hapart
        · intro b hb
          exact Option.some.inj hb ▸ hfront'

/-- The handles stay alike while both are written to. -/
theorem mwrite_loop (halike : Alike front front' r r' h k) (alloc : Alloc) (fuel : Nat) (data : List UInt8)
    (len : Int) (writed : Nat) :
    Lockstep (Alike front front' r r') (mfile.mwrite_loop alloc fuel h data len writed)
      (mfile.mwrite_loop alloc fuel k data len writed) := by
  induction fuel generalizing h k writed with
  | zero =>
    unfold mfile.mwrite_loop
    by_cases hmore : (writed : Int) < len
    · rw [if_pos hmore, if_pos hmore]
      exact .error _
    · rw [if_neg hmore, if_neg hmore]
      exact .ok 1 halike
  | succ fuel ih =>
    unfold mfile.mwrite_loop
    by_cases hmore : (writed : Int) < len
    · obtain ⟨h₁, k₁, found, hh, hk, halike₁⟩ := halike.write_block alloc
      rw [if_pos hmore, if_pos hmore]
      dsimp only
      rw [hh, hk]
      cases found with
      | false => exact .ok (-1) halike₁
      | true =>
        dsimp only
        rw [halike₁.writer_block, halike₁.size]
        apply Lockstep.bind_same
        intro block
        by_cases hfits : (len - writed).toNat ≤ h₁.DATA_BLOCK_SIZE - block.current_write_count
        · rw [if_pos hfits, if_pos hfits]
          exact (halike₁.append_bytes data writed _).bind fun h₂ k₂ halike₂ => .ok 1 halike₂
        · rw [if_neg hfits, if_neg hfits]
          apply (halike₁.append_bytes data writed _).bind
          intro h₂ k₂ halike₂
          have hnext : Alike front front' r r' { h₂ with is_full := true } { k₂ with is_full := true } :=
            { halike₂ with is_full := rfl }
          exact ih hnext _
    · rw [if_neg hmore, if_neg hmore]
      exact .ok 1 halike

theorem mwrite (halike : Alike front front' r r' h k) (alloc : Alloc) (data : List UInt8) (len : Int) :
    Lockstep (Alike front front' r r') (mfile.mwrite alloc h data len) (mfile.mwrite alloc k data len) := by
  unfold mfile.mwrite
  have hstart : Alike front front' r r' { h with total_size := h.total_size + len }
      { k with total_size := k.total_size + len } :=
    { halike with total_size := congrArg (· + len) halike.total_size }
  exact hstart.mwrite_loop alloc len.toNat data len 0

/-! ## Reading -/

/-- The readers may move and the read counts may change. -/
theorem turn (halike : Alike front front' r r' h k) {h₁ k₁ : MFile} (hsame : SameStore h h₁) (hsame' : SameStore k k₁)
    {front₁ front₁' q₁ : Tailq DataBlock} (hhead : h₁.head = front₁ ++ q₁) (hhead' : k₁.head = front₁' ++ q₁)
    (hfront : Tailq.addresses front₁ = Tailq.addresses front)
    (hfront' : Tailq.addresses front₁' = Tailq.addresses front') {r₁ r₁' : Reader} (hreader : h₁.reader = r₁)
    (hreader' : k₁.reader = r₁') : Alike front₁ front₁' r₁ r₁' h₁ k₁ := by
  obtain ⟨q, hh, hk, hapart⟩ := halike.heads
  have haddresses := hsame.addresses_eq
  rw [hh, hhead, Tailq.addresses_append, Tailq.addresses_append, hfront] at haddresses
  have hq := List.append_cancel_left haddresses
  refine ⟨⟨q₁, hhead, hhead', ?_⟩, hreader, hreader', ?_, ?_, ?_, ?_, ?_, ?_, ?_, ?_, ?_⟩
  · rw [hq, hfront']
    exact hapart
  · rw [hsame'.total_size, halike.total_size, hsame.total_size]
  · rw [hsame'.current_write_p, halike.current_write_p, hsame.current_write_p]
  · rw [hsame'.is_full, halike.is_full, hsame.is_full]
  · rw [hsame'.size, halike.size, hsame.size]
  · rw [hsame'.allocs, halike.allocs, hsame.allocs]
  · rw [hsame.current_write_p, hfront']
    exact halike.writer
  · rw [hsame.allocs, hfront']
    exact halike.fresh
  · rw [hfront, hfront']
    exact halike.subset
  · rw [hfront']
    exact halike.nodup

theorem pointer (halike : Alike front front' r r' h k) : h.current_read_p = r.current_read_p :=
  congrArg Reader.current_read_p halike.reader

theorem pointer' (halike : Alike front front' r r' h k) : k.current_read_p = r'.current_read_p :=
  congrArg Reader.current_read_p halike.reader'

theorem held (halike : Alike front front' r r' h k) : h.ccache = r.ccache :=
  congrArg Reader.ccache halike.reader

theorem held' (halike : Alike front front' r r' h k) : k.ccache = r'.ccache :=
  congrArg Reader.ccache halike.reader'

/-- The readers move to other blocks. -/
theorem point (halike : Alike front front' r r' h k) (p p' : Ptr) :
    Alike front front' { r with current_read_p := p } { r' with current_read_p := p' }
      { h with current_read_p := p } { k with current_read_p := p' } :=
  { halike with
    reader := congrArg (fun r : Reader => { r with current_read_p := p }) halike.reader
    reader' := congrArg (fun r : Reader => { r with current_read_p := p' }) halike.reader' }

theorem hold (halike : Alike front front' r r' h k) (c : UInt8) :
    Alike front front' { r with ccache := c } { r' with ccache := c } { h with ccache := c } { k with ccache := c } :=
  { halike with
    reader := congrArg (fun r : Reader => { r with ccache := c }) halike.reader
    reader' := congrArg (fun r : Reader => { r with ccache := c }) halike.reader' }

theorem rewind (halike : Alike front front' r r' h k) :
    Alike (shelf front) (shelf front') ⟨none, false, r.ccache⟩ ⟨none, false, r'.ccache⟩ (mseek h) (mseek k) := by
  obtain ⟨q, hhead, hhead', _⟩ := halike.heads
  have hrewound : (mseek h).head = shelf front ++ shelf q := by
    rw [← shelf_append, ← hhead]
    rfl
  have hrewound' : (mseek k).head = shelf front' ++ shelf q := by
    rw [← shelf_append, ← hhead']
    rfl
  refine halike.turn (mseek_store h) (mseek_store k) hrewound hrewound' (addresses_shelf front)
    (addresses_shelf front') ?_ ?_
  · rw [← halike.reader]
    rfl
  · rw [← halike.reader']
    rfl

/-- Bytes are taken of a block that both handles have. -/
theorem take_shared {pre : Tailq DataBlock} (halike : Alike front (pre ++ front) r r h k) {a : Nat}
    (ha : r.current_read_p = some a) (hpre : a ∉ Tailq.addresses pre) (block : DataBlock) (count : Nat) :
    ∃ r₁ : Reader, r₁.current_read_p = some a ∧ Alike (front.modify a (DataBlock.took count))
      (pre ++ front.modify a (DataBlock.took count)) r₁ r₁ (consume h block count) (consume k block count) := by
  obtain ⟨q, hhead, hhead', _⟩ := halike.heads
  have hp := halike.pointer.trans ha
  have hp' := halike.pointer'.trans ha
  have htook : (consume h block count).head =
      front.modify a (DataBlock.took count) ++ q.modify a (DataBlock.took count) := by
    rw [consume_head hp, hhead, Tailq.modify_append]
  have htook' : (consume k block count).head =
      (pre ++ front.modify a (DataBlock.took count)) ++ q.modify a (DataBlock.took count) := by
    rw [consume_head hp', hhead', Tailq.modify_append, Tailq.modify_append, Tailq.modify_of_notMem _ hpre]
  have hreader : (consume k block count).reader = (consume h block count).reader :=
    congrArg₂ (fun p c => Reader.mk p _ c) (hp'.trans hp.symm) (halike.held'.trans halike.held.symm)
  refine ⟨(consume h block count).reader, hp, halike.turn (consume_same h block count) (consume_same k block count)
    htook htook' (Tailq.addresses_modify front _) ?_ rfl hreader⟩
  rw [Tailq.addresses_append, Tailq.addresses_append, Tailq.addresses_modify]

/-- Bytes are taken of the first blocks. -/
theorem take_first {e n : Nat} {old new hidden : DataBlock}
    (halike : Alike [(e, old)] [(n, new), (e, hidden)] r r' h k)
    (he : r.current_read_p = some e) (hn : r'.current_read_p = some n) (count : Nat) :
    Alike [(e, old.took count)] [(n, new.took count), (e, hidden)] (consume h old count).reader
      (consume k new count).reader (consume h old count) (consume k new count) := by
  obtain ⟨q, hhead, hhead', hapart⟩ := halike.heads
  have hdistinct : n ≠ e := by simpa [Tailq.addresses] using halike.nodup
  have hnq : n ∉ Tailq.addresses q := fun hq => hapart n hq (by simp [Tailq.addresses])
  have heq : e ∉ Tailq.addresses q := fun hq => hapart e hq (by simp [Tailq.addresses])
  have htook : (consume h old count).head = [(e, old.took count)] ++ q := by
    rw [consume_head (halike.pointer.trans he), hhead, Tailq.modify_append, Tailq.modify_of_notMem _ heq]
    simp [Tailq.modify]
  have htook' : (consume k new count).head = [(n, new.took count), (e, hidden)] ++ q := by
    rw [consume_head (halike.pointer'.trans hn), hhead', Tailq.modify_append, Tailq.modify_of_notMem _ hnq]
    simp [Tailq.modify, hdistinct.symm]
  exact halike.turn (consume_same h old count) (consume_same k new count) htook htook' rfl rfl rfl rfl

end Alike

/-! ## A first block that holds nothing -/

/-- The block holds nothing and its buffer is `data`. -/
structure DataBlock.Blank (data : List UInt8) (block : DataBlock) : Prop where
  empty : block.current_write_count = 0
  data : block.data = data

/-- No later call can tell the two handles apart. -/
inductive Unnoticed (data : List UInt8) : MFile → MFile → Prop
  /-- Only the second handle has the blocks `pre`, and the reader is not there. It
      may have to come back to a first block that is like the one in `pre`. -/
  | behind {pre front : Tailq DataBlock} {r : Reader} {h k : MFile} (halike : Alike front (pre ++ front) r r h k)
      (hreader : ∀ a, r.current_read_p = some a → a ∉ Tailq.addresses pre)
      (hfront : pre = [] ∧ front = [] ∨ r.current_read_p ≠ none ∧ ∃ n new e old,
        pre = [(n, new)] ∧ front = [(e, old)] ∧ new.Blank data ∧ old.Blank data) : Unnoticed data h k
  /-- The readers are at first blocks that hold nothing, or before them. -/
  | before {e n : Nat} {old new hidden : DataBlock} {r r' : Reader} {h k : MFile}
      (halike : Alike [(e, old)] [(n, new), (e, hidden)] r r' h k) (hold : old.Blank data) (hnew : new.Blank data)
      (hcount : new.current_read_count = old.current_read_count) (hflag : r.is_empty = false ∧ r'.is_empty = false)
      (hccache : r'.ccache = r.ccache)
      (hreaders : r.current_read_p = some e ∧ r'.current_read_p = some n ∨
        r.current_read_p = none ∧ r'.current_read_p = none ∧ old.current_read_count = 0) : Unnoticed data h k

namespace Unnoticed

variable {data : List UInt8} {h k : MFile}

theorem mwrite (hunnoticed : Unnoticed data h k) (alloc : Alloc) (bytes : List UInt8) (len : Int) :
    Lockstep (Unnoticed data) (mfile.mwrite alloc h bytes len) (mfile.mwrite alloc k bytes len) := by
  cases hunnoticed with
  | behind halike hreader hfront =>
    exact (halike.mwrite alloc bytes len).mono fun _ _ halike => .behind halike hreader hfront
  | before halike hold hnew hcount hflag hccache hreaders =>
    exact (halike.mwrite alloc bytes len).mono fun _ _ halike => .before halike hold hnew hcount hflag hccache hreaders

theorem total_size (hunnoticed : Unnoticed data h k) : k.total_size = h.total_size := by
  cases hunnoticed with
  | behind halike _ _ => exact halike.total_size
  | before halike _ _ _ _ _ _ => exact halike.total_size

/-- After a rewind both readers are before a first block that holds nothing,
    unless no block was added. -/
theorem mseek (hunnoticed : Unnoticed data h k) : Unnoticed data (mfile.mseek h) (mfile.mseek k) := by
  cases hunnoticed with
  | @behind pre front r h k halike hreader hfront =>
    rcases hfront with ⟨rfl, rfl⟩ | ⟨_, n, new, e, old, rfl, rfl, hnew, hold⟩
    · exact .behind halike.rewind (fun a ha => by cases ha) (Or.inl ⟨rfl, rfl⟩)
    · exact .before halike.rewind ⟨hold.empty, hold.data⟩ ⟨hnew.empty, hnew.data⟩ rfl ⟨rfl, rfl⟩ rfl
        (Or.inr ⟨rfl, rfl, rfl⟩)
  | before halike hold hnew hcount hflag hccache hreaders =>
    exact .before halike.rewind ⟨hold.empty, hold.data⟩ ⟨hnew.empty, hnew.data⟩ rfl ⟨rfl, rfl⟩ hccache
      (Or.inr ⟨rfl, rfl, rfl⟩)

/-! ## The steps of the readers -/

theorem start (hunnoticed : Unnoticed data h k) :
    read_start h = none ∧ read_start k = none ∨ ∃ a b, read_start h = some a ∧ read_start k = some b ∧
      Unnoticed data { h with current_read_p := some a } { k with current_read_p := some b } := by
  cases hunnoticed with
  | @behind pre front r h k halike hreader hfront =>
    have hp := halike.pointer
    have hp' := halike.pointer'
    cases hstarted : r.current_read_p with
    | some a =>
      have hh : read_start h = some a := by simp [read_start, hp, hstarted]
      have hk : read_start k = some a := by simp [read_start, hp', hstarted]
      refine Or.inr ⟨a, a, hh, hk, .behind (halike.point (some a) (some a)) ?_ ?_⟩
      · intro b hb
        exact hreader b (hstarted.trans hb)
      · exact hfront.imp_right fun ⟨_, hblocks⟩ => ⟨nofun, hblocks⟩
    | none =>
      rcases hfront with ⟨rfl, rfl⟩ | ⟨hpointer, _⟩
      · obtain ⟨q, hhead, hhead', _⟩ := halike.heads
        have hh : read_start h = h.head.first := by simp [read_start, hp, hstarted]
        have hk : read_start k = h.head.first := by simp [read_start, hp', hstarted, hhead, hhead']
        cases hfirst : h.head.first with
        | none => exact Or.inl ⟨hh.trans hfirst, hk.trans hfirst⟩
        | some a =>
          exact Or.inr ⟨a, a, hh.trans hfirst, hk.trans hfirst, .behind (halike.point (some a) (some a))
            (fun _ _ => List.not_mem_nil) (Or.inl ⟨rfl, rfl⟩)⟩
      · exact absurd hstarted hpointer
  | @before e n old new hidden r r' h k halike hold hnew hcount hflag hccache hreaders =>
    have hp := halike.pointer
    have hp' := halike.pointer'
    obtain ⟨q, hhead, hhead', _⟩ := halike.heads
    refine Or.inr ⟨e, n, ?_, ?_, .before (halike.point (some e) (some n)) hold hnew hcount hflag hccache
      (Or.inl ⟨rfl, rfl⟩)⟩
    · rcases hreaders with ⟨he, _⟩ | ⟨hnone, _, _⟩
      · simp [read_start, hp, he]
      · simp [read_start, hp, hnone, hhead, Tailq.first]
    · rcases hreaders with ⟨_, hn⟩ | ⟨_, hnone, _⟩
      · simp [read_start, hp', hn]
      · simp [read_start, hp', hnone, hhead', Tailq.first]

theorem advance (hunnoticed : Unnoticed data h k) :
    Matched (Option.Rel (Unnoticed data)) (read_advance h) (read_advance k) := by
  unfold read_advance
  cases hunnoticed with
  | @behind pre front r h k halike hreader hfront =>
    have hp := halike.pointer
    have hp' := halike.pointer'
    have hempty : k.is_empty = h.is_empty := congrArg Reader.is_empty (halike.reader'.trans halike.reader.symm)
    obtain ⟨q, hhead, hhead', hapart⟩ := halike.heads
    have hnodup := halike.nodup
    rw [Tailq.addresses_append, List.nodup_append] at hnodup
    rw [List.append_assoc, ← hhead] at hhead'
    by_cases hset : h.is_empty = true
    · have hnext : k.head.next k.current_read_p = h.head.next h.current_read_p := by
        rw [hp, hp']
        cases hstarted : r.current_read_p with
        | none => rfl
        | some a => rw [hhead', Tailq.next_append (hreader a hstarted)]
      rw [if_pos hset, if_pos (hempty.trans hset), hnext]
      cases hfound : h.head.next h.current_read_p with
      | error e => exact .error e
      | ok next =>
        cases next with
        | none => exact .ok .none
        | some b =>
          refine .ok (.some (.behind (halike.point (some b) (some b)) ?_ ?_))
          · rintro c ⟨⟩ hpre
            have hmem := Tailq.next_mem hfound
            rw [hhead, Tailq.addresses_append] at hmem
            rcases List.mem_append.mp hmem with hfront | hq
            · exact hnodup.2.2 b hpre b hfront rfl
            · refine hapart b hq ?_
              rw [Tailq.addresses_append]
              exact List.mem_append_left _ hpre
          · exact hfront.imp_right fun ⟨_, hblocks⟩ => ⟨nofun, hblocks⟩
    · rw [if_neg hset, if_neg (hempty ▸ hset)]
      exact .ok (.some (.behind halike hreader hfront))
  | before halike hold hnew hcount hflag hccache hreaders =>
    have hempty : h.is_empty = false := (congrArg Reader.is_empty halike.reader).trans hflag.1
    have hempty' : k.is_empty = false := (congrArg Reader.is_empty halike.reader').trans hflag.2
    rw [hempty, hempty']
    exact .ok (.some (.before halike hold hnew hcount hflag hccache hreaders))

theorem block (hunnoticed : Unnoticed data h k) :
    Matched (fun block block' => SameBlock block block' ∧
        ∀ count, 0 < count → Unnoticed data (consume h block count) (consume k block' count))
      (h.head.read h.current_read_p) (k.head.read k.current_read_p) := by
  cases hunnoticed with
  | @behind pre front r h k halike hreader hfront =>
    have hp := halike.pointer
    have hp' := halike.pointer'
    obtain ⟨q, hhead, hhead', _⟩ := halike.heads
    have hsame : k.head.read k.current_read_p = h.head.read h.current_read_p := by
      rw [hp, hp']
      cases hstarted : r.current_read_p with
      | none => rfl
      | some a => rw [hhead', hhead, List.append_assoc, Tailq.read_append (hreader a hstarted)]
    rw [hsame]
    cases hread : h.head.read h.current_read_p with
    | error e => exact .error e
    | ok block =>
      refine .ok ⟨⟨rfl, rfl, rfl⟩, fun count _ => ?_⟩
      obtain ⟨a, ha, _⟩ := Tailq.read_mem hread
      have hpre := hreader a (hp.symm.trans ha)
      obtain ⟨r₁, hr₁, halike₁⟩ := halike.take_shared (hp.symm.trans ha) hpre block count
      refine .behind halike₁ ?_ ?_
      · intro b hb
        exact Option.some.inj (hr₁.symm.trans hb) ▸ hpre
      · refine hfront.imp (fun ⟨hpre, hnone⟩ => ⟨hpre, by rw [hnone]; rfl⟩) ?_
        rintro ⟨_, n, new, e, old, rfl, rfl, hnew, hold⟩
        have hstarted : r₁.current_read_p ≠ none := by
          rw [hr₁]
          exact nofun
        by_cases he : e = a
        · exact ⟨hstarted, n, new, e, old.took count, rfl, by simp [Tailq.modify, he], hnew, hold.empty, hold.data⟩
        · exact ⟨hstarted, n, new, e, old, rfl, by simp [Tailq.modify, he], hnew, hold⟩
  | @before e n old new hidden r r' h k halike hold hnew hcount hflag hccache hreaders =>
    have hp := halike.pointer
    have hp' := halike.pointer'
    obtain ⟨q, hhead, hhead', _⟩ := halike.heads
    rcases hreaders with ⟨he, hn⟩ | ⟨hnone, hnone', _⟩
    · have hread : h.head.read h.current_read_p = .ok old := by simp [hp, he, hhead, Tailq.read]
      have hread' : k.head.read k.current_read_p = .ok new := by simp [hp', hn, hhead', Tailq.read]
      rw [hread, hread']
      refine .ok ⟨⟨hnew.data.trans hold.data.symm, hnew.empty.trans hold.empty.symm, hcount⟩, fun count hpos => ?_⟩
      -- a read count is never that of the bytes written, which is 0
      have hempty : decide (old.current_read_count + count = old.current_write_count) = false :=
        decide_eq_false (by rw [hold.empty]; omega)
      have hempty' : decide (new.current_read_count + count = new.current_write_count) = false :=
        decide_eq_false (by rw [hnew.empty]; omega)
      exact .before (halike.take_first he hn count) ⟨hold.empty, hold.data⟩ ⟨hnew.empty, hnew.data⟩
        (congrArg (· + count) hcount) ⟨hempty, hempty'⟩ (halike.held'.trans (hccache.trans halike.held.symm))
        (Or.inl ⟨hp.trans he, hp'.trans hn⟩)
    · rw [hp, hp', hnone, hnone']
      exact .error _

theorem ccache (hunnoticed : Unnoticed data h k) : k.ccache = h.ccache := by
  cases hunnoticed with
  | behind halike _ _ => exact halike.held'.trans halike.held.symm
  | before halike _ _ _ _ hccache _ => exact halike.held'.trans (hccache.trans halike.held.symm)

/-- No reader tells the handles apart. -/
theorem steady (data : List UInt8) : LineSteady (Unnoticed data) := by
  refine ⟨⟨fun h k => start, fun h k => advance, fun h k => block⟩, fun h k => ccache, ?_⟩
  intro h k c hunnoticed
  cases hunnoticed with
  | behind halike hreader hfront =>
    exact .behind (halike.hold c) hreader hfront
  | before halike hold hnew hcount hflag _ hreaders =>
    exact .before (halike.hold c) hold hnew hcount hflag rfl hreaders

end Unnoticed

end code_tools.mfile
