import CodeTools.Lib.Text
import CodeTools.Utf8str.Model

/-!
# Copying is normalising and truncating

`utf8_strncpy` against a reference on code points. The loop reads its source one
character after another as long as the characters end within the length that it
keeps in 32 bits.
-/

namespace code_tools.utf8str

open cmem cstring text

/-! ## The reference -/

def blank (c : Char) : Bool := c = '\r' || c = '\n' || c = '\t'

/-- No line breaks and tabulators, no spaces in front and no runs of spaces. -/
def normalise (cs : List Char) : List Char :=
  squeeze ' ' ((cs.filter fun c => !blank c).dropWhile (· = ' '))

/-! ## Normalising one character after another

The flag says that a space would be dropped. -/

def emit (flag : Bool) (c : Char) : List Char := if blank c ∨ c = ' ' ∧ flag then [] else [c]

def after (flag : Bool) (c : Char) : Bool := if blank c then flag else c = ' '

def kept : Bool → List Char → List Char
  | _, [] => []
  | flag, c :: cs => emit flag c ++ kept (after flag c) cs

theorem length_emit_le (flag : Bool) (c : Char) : (emit flag c).length ≤ 1 := by
  unfold emit
  split
  · exact Nat.zero_le 1
  · exact Nat.le_refl 1

theorem kept_append (flag : Bool) (cs ds : List Char) :
    kept flag (cs ++ ds) = kept flag cs ++ kept (cs.foldl after flag) ds := by
  induction cs generalizing flag with
  | nil => rfl
  | cons c cs ih => rw [List.cons_append, kept, kept, ih, List.append_assoc, List.foldl_cons]

/-- Deleted characters leave no trace, in the flag either. -/
theorem kept_filter (flag : Bool) (cs : List Char) : kept flag (cs.filter fun c => !blank c) = kept flag cs := by
  induction cs generalizing flag with
  | nil => rfl
  | cons c cs ih =>
    by_cases hc : blank c = true
    · rw [List.filter_cons_of_neg (by simp [hc]), ih, kept, emit, after, if_pos (Or.inl hc),
        if_pos hc, List.nil_append]
    · rw [List.filter_cons_of_pos (by simp [hc]), kept, kept, ih]

theorem kept_eq_squeeze {cs : List Char} (hcs : ∀ c ∈ cs, blank c = false) :
    kept true cs = squeeze ' ' (cs.dropWhile (· = ' ')) ∧ kept false cs = squeeze ' ' cs := by
  induction cs with
  | nil => exact ⟨rfl, rfl⟩
  | cons c cs ih =>
    obtain ⟨htrue, hfalse⟩ := ih fun d hd => hcs d (List.mem_cons_of_mem c hd)
    have hblank := hcs c List.mem_cons_self
    by_cases hc : c = ' '
    · subst c
      constructor
      · simpa [kept, emit, after, hblank] using htrue
      · rw [squeeze_cons_self, ← htrue]
        simp [kept, emit, after, hblank]
    · constructor
      · rw [List.dropWhile_cons_of_neg (by simp [hc]), squeeze_cons_of_ne hc, ← hfalse]
        simp [kept, emit, after, hblank, hc]
      · rw [squeeze_cons_of_ne hc, ← hfalse]
        simp [kept, emit, after, hblank, hc]

theorem normalise_eq_kept (cs : List Char) : normalise cs = kept true cs := by
  unfold normalise
  rw [← (kept_eq_squeeze _).1, kept_filter]
  intro c hc
  simpa using (List.mem_filter.mp hc).2

/-! ## Lead bytes -/

/-- What `utf8_strncpy` sees of a character when it looks at its first byte. -/
structure Leads (b : UInt8) (c : Char) : Prop where
  width : (utf8_check b).toNat = c.utf8Size
  blank_iff : (b = CR ∨ b = LF ∨ b = TAB) ↔ blank c = true
  space_iff : b = SPACE ↔ c = ' '

private theorem utf8_check_ascii : ∀ b : UInt8, b.toNat < 128 → utf8_check b = 1 := by
  apply forall_byte
  decide +kernel

/-- A lead byte of a longer sequence. -/
def Marked (width : UInt32) (b : UInt8) : Prop :=
  utf8_check b = width ∧ b ≠ CR ∧ b ≠ LF ∧ b ≠ TAB ∧ b ≠ SPACE

instance (width : UInt32) (b : UInt8) : Decidable (Marked width b) := by
  unfold Marked
  infer_instance

private theorem marked_two : ∀ b : UInt8, Marked 2 (b &&& 0x1f ||| 0xc0) := by
  apply forall_byte
  decide +kernel

private theorem marked_three : ∀ b : UInt8, Marked 3 (b &&& 0x0f ||| 0xe0) := by
  apply forall_byte
  decide +kernel

private theorem marked_four : ∀ b : UInt8, Marked 4 (b &&& 0x07 ||| 0xf0) := by
  apply forall_byte
  decide +kernel

/-- Blanks and the space have one byte. -/
theorem utf8Size_of_blank {c : Char} (hc : blank c = true ∨ c = ' ') : c.utf8Size = 1 := by
  simp only [blank, Bool.or_eq_true, decide_eq_true_eq] at hc
  rcases hc with ((rfl | rfl) | rfl) | rfl <;> rfl

theorem Marked.leads {width : UInt32} {b : UInt8} {c : Char} (h : Marked width b) (hwidth : width.toNat = c.utf8Size)
    (hlong : 1 < c.utf8Size) : Leads b c := by
  obtain ⟨hcheck, hcr, hlf, htab, hspace⟩ := h
  refine ⟨by rw [hcheck, hwidth], ?_, ?_⟩
  · constructor
    · rintro (hb | hb | hb)
      · exact absurd hb hcr
      · exact absurd hb hlf
      · exact absurd hb htab
    · intro hc
      have hone := utf8Size_of_blank (Or.inl hc)
      omega
  · constructor
    · intro hb
      exact absurd hb hspace
    · intro hc
      have hone := utf8Size_of_blank (Or.inr hc)
      omega

theorem leads_utf8EncodeChar (c : Char) : ∃ b bs, String.utf8EncodeChar c = b :: bs ∧ Leads b c := by
  rcases utf8Size_cases c with hsize | hsize | hsize | hsize
  · refine ⟨_, _, String.utf8EncodeChar_eq_singleton hsize, ?_, ?_, ?_⟩
    · have hval := UInt32.le_iff_toNat_le.mp (Char.utf8Size_eq_one_iff.mp hsize)
      have hbound : (127 : UInt32).toNat = 127 := rfl
      rw [hsize, utf8_check_ascii]
      · rfl
      · rw [UInt32.toNat_toUInt8]
        omega
    · have hcr := toUInt8_inj hsize (rfl : '\r'.utf8Size = 1)
      have hlf := toUInt8_inj hsize (rfl : '\n'.utf8Size = 1)
      have htab := toUInt8_inj hsize (rfl : '\t'.utf8Size = 1)
      change (_ = '\r'.val.toUInt8 ∨ _ = '\n'.val.toUInt8 ∨ _ = '\t'.val.toUInt8) ↔ _
      rw [hcr, hlf, htab]
      simp [blank, or_assoc]
    · exact toUInt8_inj hsize (rfl : ' '.utf8Size = 1)
  · exact ⟨_, _, String.utf8EncodeChar_eq_cons_cons hsize, (marked_two _).leads hsize.symm (by omega)⟩
  · exact ⟨_, _, String.utf8EncodeChar_eq_cons_cons_cons hsize, (marked_three _).leads hsize.symm (by omega)⟩
  · exact ⟨_, _, String.utf8EncodeChar_eq_cons_cons_cons_cons hsize, (marked_four _).leads hsize.symm (by omega)⟩

/-! ## The loop -/

/-- The loop went over the characters `cs`. -/
structure Advanced (s : Copying) (cs : List Char) (s' : Copying) : Prop where
  i : s'.i.toNat = s.i.toNat + (encode cs).length
  n : s'.n.toNat = s.n.toNat + (kept s.flag cs).length
  p : s'.p = s.p + (encode (kept s.flag cs)).length
  flag : s'.flag = cs.foldl after s.flag
  stores : Stores s.dest s.p (encode (kept s.flag cs)) s'.dest

theorem Advanced.refl (s : Copying) : Advanced s [] s :=
  ⟨rfl, rfl, rfl, rfl, rfl, by simp [kept]⟩

theorem Advanced.trans {s s' s'' : Copying} {cs ds : List Char} (h : Advanced s cs s') (h' : Advanced s' ds s'') :
    Advanced s (cs ++ ds) s'' := by
  have hkept : kept s.flag (cs ++ ds) = kept s.flag cs ++ kept s'.flag ds := by
    rw [kept_append, h.flag]
  refine ⟨?_, ?_, ?_, ?_, ?_⟩
  · rw [h'.i, h.i, encode_append, List.length_append, Nat.add_assoc]
  · rw [h'.n, h.n, hkept, List.length_append, Nat.add_assoc]
  · rw [h'.p, h.p, hkept, encode_append, List.length_append, Nat.add_assoc]
  · rw [h'.flag, h.flag, List.foldl_append]
  · rw [hkept, encode_append]
    apply h.stores.append
    rw [← h.p]
    exact h'.stores

theorem toNat_add_of_lt {a b : UInt32} (hlt : a.toNat + b.toNat < 2 ^ 32) : (a + b).toNat = a.toNat + b.toNat := by
  rw [UInt32.toNat_add, Nat.mod_eq_of_lt hlt]

theorem Advanced.skip {s : Copying} {c : Char} {width : UInt32} (hemit : emit s.flag c = [])
    (hafter : after s.flag c = s.flag)
    (hi : (s.i + width).toNat = s.i.toNat + c.utf8Size) : Advanced s [c] { s with i := s.i + width } := by
  have hkept : kept s.flag [c] = [] := by rw [kept, hemit, kept, List.append_nil]
  refine ⟨?_, ?_, ?_, hafter.symm, ?_⟩
  · simpa using hi
  · rw [hkept, List.length_nil, Nat.add_zero]
  · rw [hkept, encode_nil, List.length_nil, Nat.add_zero]
  · rw [hkept, encode_nil]
    exact ⟨rfl, (List.append_nil _).symm⟩

theorem Advanced.write {s : Copying} {c : Char} {width : UInt32} {dest : List UInt8} {p : Nat} {flag : Bool}
    (hemit : emit s.flag c = [c]) (hafter : after s.flag c = flag)
    (hi : (s.i + width).toNat = s.i.toNat + c.utf8Size) (hn : (s.n + 1).toNat = s.n.toNat + 1)
    (hp : p = s.p + c.utf8Size) (hstores : Stores s.dest s.p (String.utf8EncodeChar c) dest) :
    Advanced s [c] { dest, p, flag, i := s.i + width, n := s.n + 1 } := by
  have hkept : kept s.flag [c] = [c] := by rw [kept, hemit, kept, List.append_nil]
  refine ⟨?_, ?_, ?_, hafter.symm, ?_⟩
  · simpa using hi
  · rw [hkept]
    exact hn
  · rw [hkept]
    simpa using hp
  · rw [hkept, encode_cons, encode_nil, List.append_nil]
    exact hstores

/-- A character that ends within the length is read whole. -/
theorem copy_step_spec {bytes tail : List UInt8} {c : Char} {slen max : UInt32} {s : Copying}
    (hi : s.i.toNat = bytes.length) (hfits : bytes.length + c.utf8Size ≤ slen.toNat) (hn : s.n < max)
    (hroom : s.p + (encode (emit s.flag c)).length ≤ s.dest.length) :
    ∃ s', copy_step (bytes ++ String.utf8EncodeChar c ++ tail) slen s = .ok (some s') ∧ Advanced s [c] s' := by
  obtain ⟨b, bs, hbytes, hleads⟩ := leads_utf8EncodeChar c
  have hslen := slen.toNat_lt
  have hcount : (s.n + 1).toNat = s.n.toNat + 1 := by
    have hmax := max.toNat_lt
    have hlt := UInt32.lt_iff_toNat_lt.mp hn
    exact toNat_add_of_lt (by rw [UInt32.toNat_one]; omega)
  have hwidth : ∀ width : UInt32, width.toNat = c.utf8Size → (s.i + width).toNat = s.i.toNat + c.utf8Size := by
    intro width hsize
    rw [toNat_add_of_lt (by omega), hsize]
  have hget : (bytes ++ String.utf8EncodeChar c ++ tail ++ [0])[s.i.toNat]? = some b := by
    simp [hi, hbytes]
  unfold copy_step
  rw [hget, Option.elim_some, ok_bind]
  by_cases hblank : blank c = true
  · rw [if_pos (hleads.blank_iff.mpr hblank)]
    exact ⟨_, rfl, .skip (by simp [emit, hblank]) (by simp [after, hblank])
      (hwidth 1 (utf8Size_of_blank (Or.inl hblank)).symm)⟩
  rw [if_neg (mt hleads.blank_iff.mp hblank)]
  by_cases hspace : c = ' '
  · have hsize := utf8Size_of_blank (Or.inr hspace)
    rw [if_pos (hleads.space_iff.mpr hspace)]
    by_cases hflag : s.flag = true
    · rw [if_pos hflag]
      exact ⟨_, rfl, .skip (by simp [emit, hspace, hflag]) (by simp [after, hspace, hflag])
        (hwidth 1 hsize.symm)⟩
    · have hemit : emit s.flag c = [c] := by simp [emit, hblank, hflag]
      have hencode : String.utf8EncodeChar c = [b] := by
        rw [hleads.space_iff.mpr hspace, hspace]
        rfl
      rw [if_neg hflag]
      obtain ⟨dest, hblit, hstores⟩ := blit_stores
        (by simpa [hemit, hencode] using hroom : s.p + [b].length ≤ s.dest.length)
      rw [hblit, ok_bind]
      exact ⟨_, rfl, .write hemit (by simp [after, blank, hspace]) (hwidth 1 hsize.symm) hcount
        (by rw [hsize]) (by rw [hencode]; exact hstores)⟩
  · have hemit : emit s.flag c = [c] := by simp [emit, hblank, hspace]
    have hpos := Char.utf8Size_pos c
    have hsum := hwidth _ hleads.width
    rw [if_neg (mt hleads.space_iff.mp hspace), if_pos]
    · have hslice : slice (bytes ++ String.utf8EncodeChar c ++ tail ++ [0]) s.i.toNat (utf8_check b).toNat =
          .ok (String.utf8EncodeChar c) := by
        rw [slice_eq (by simp [hi, hleads.width]), hi, hleads.width]
        simp [List.append_assoc, ← String.length_utf8EncodeChar]
      obtain ⟨dest, hblit, hstores⟩ := blit_stores
        (by simpa [hemit] using hroom : s.p + (String.utf8EncodeChar c).length ≤ s.dest.length)
      rw [hslice, ok_bind, hblit, ok_bind]
      exact ⟨_, rfl, .write hemit (by simp [after, hblank, hspace]) hsum hcount (by rw [hleads.width]) hstores⟩
    · constructor
      · rw [gt_iff_lt, UInt32.lt_iff_toNat_lt, hleads.width, UInt32.toNat_zero]
        exact hpos
      · rw [UInt32.le_iff_toNat_le, hsum]
        omega

theorem copy_loop_next {src : List UInt8} {slen max : UInt32} {s s' : Copying} (hi : s.i < slen) (hn : s.n < max)
    (hstep : copy_step src slen s = .ok (some s')) (fuel : Nat) :
    copy_loop src slen max (fuel + 1) s = copy_loop src slen max fuel s' := by
  rw [copy_loop, if_pos ⟨hi, hn⟩, hstep, ok_bind]

theorem copy_loop_break {src : List UInt8} {slen max : UInt32} {s : Copying}
    (hstep : copy_step src slen s = .ok none) (fuel : Nat) : copy_loop src slen max (fuel + 1) s = .ok s := by
  rw [copy_loop, hstep, ok_bind]
  split
  · rfl
  · rfl

theorem copy_loop_done {src : List UInt8} {slen max : UInt32} {s : Copying} (hdone : ¬(s.i < slen ∧ s.n < max))
    (fuel : Nat) : copy_loop src slen max fuel s = .ok s := by
  cases fuel with
  | zero => rw [copy_loop, if_neg hdone]
  | succ fuel => rw [copy_loop, if_neg hdone]

/-- The loop goes over characters that end within the length until it has written
    as many as it may. -/
theorem copy_loop_spec (bytes : List UInt8) (cs : List Char) (tail : List UInt8) {slen max : UInt32} {s : Copying}
    (hi : s.i.toNat = bytes.length) (hfits : bytes.length + (encode cs).length ≤ slen.toNat) (hn : s.n ≤ max)
    (hroom : s.p + (encode ((kept s.flag cs).take (max.toNat - s.n.toNat))).length ≤ s.dest.length) :
    ∃ used s', used <+: cs ∧ Advanced s used s' ∧
      kept s.flag used = (kept s.flag cs).take (max.toNat - s.n.toNat) ∧ (used = cs ∨ s'.n = max) ∧
      ∀ fuel, copy_loop (bytes ++ encode cs ++ tail) slen max (fuel + used.length) s =
        copy_loop (bytes ++ encode cs ++ tail) slen max fuel s' := by
  induction cs generalizing bytes s with
  | nil =>
    refine ⟨[], s, List.prefix_refl [], .refl s, ?_, Or.inl rfl, fun fuel => rfl⟩
    rw [kept, List.take_nil]
  | cons c cs ih =>
    rw [encode_cons, List.length_append, String.length_utf8EncodeChar] at hfits
    by_cases hmax : s.n = max
    · refine ⟨[], s, List.nil_prefix, .refl s, ?_, Or.inr hmax, fun fuel => rfl⟩
      rw [hmax, Nat.sub_self, List.take_zero, kept]
    have hpos := Char.utf8Size_pos c
    have hlt : s.n < max := by
      rw [UInt32.lt_iff_toNat_lt]
      have hne := mt UInt32.toNat_inj.mp hmax
      have hle := UInt32.le_iff_toNat_le.mp hn
      omega
    have hbudget := UInt32.lt_iff_toNat_lt.mp hlt
    have hemit := length_emit_le s.flag c
    have htake : (kept s.flag (c :: cs)).take (max.toNat - s.n.toNat) =
        emit s.flag c ++ (kept (after s.flag c) cs).take (max.toNat - (s.n.toNat + (emit s.flag c).length)) := by
      rw [kept, List.take_append, List.take_of_length_le (by omega), Nat.sub_add_eq]
    rw [htake, encode_append, List.length_append] at hroom
    obtain ⟨s₁, hstep, hone⟩ : ∃ s₁, copy_step (bytes ++ String.utf8EncodeChar c ++ (encode cs ++ tail)) slen s =
        .ok (some s₁) ∧ Advanced s [c] s₁ := copy_step_spec hi (by omega) hlt (by omega)
    have hkept : kept s.flag [c] = emit s.flag c := by rw [kept, kept, List.append_nil]
    have hflag : s₁.flag = after s.flag c := hone.flag
    have hn₁ := hone.n
    have hp₁ := hone.p
    have hi₁ := hone.i
    rw [hkept] at hn₁ hp₁
    rw [encode_cons, encode_nil, List.append_nil, String.length_utf8EncodeChar, hi] at hi₁
    obtain ⟨used, s', hused, hmore, htaken, hend, hloop⟩ := ih (bytes ++ String.utf8EncodeChar c) (s := s₁)
      (by rw [hi₁, List.length_append, String.length_utf8EncodeChar])
      (by rw [List.length_append, String.length_utf8EncodeChar]; omega)
      (by rw [UInt32.le_iff_toNat_le]; omega)
      (by rw [hone.stores.length, hp₁, hn₁, hflag]; omega)
    refine ⟨c :: used, s', List.cons_prefix_cons.mpr ⟨rfl, hused⟩, hone.trans hmore, ?_, ?_, ?_⟩
    · rw [htake, kept, ← hflag, htaken, hn₁]
    · exact hend.imp (congrArg (c :: ·)) id
    · intro fuel
      have hindex : s.i < slen := by
        rw [UInt32.lt_iff_toNat_lt]
        omega
      have hrest := hloop fuel
      simp only [encode_cons, List.append_assoc] at hrest hstep ⊢
      rw [List.length_cons, ← Nat.add_assoc, copy_loop_next hindex hlt hstep, hrest]

/-! ## The whole call -/

/-- The characters that end within the length as the loop knows it. -/
def counted (cs : List Char) : List Char := whole (strlen (encode cs)).toNat cs

/-- The first character behind those, if it begins within the length, ends below
    2^32, so that the index does not wrap around. -/
def Ends (cs : List Char) : Prop :=
  ∀ c rest, cs = counted cs ++ c :: rest → (encode (counted cs)).length < (strlen (encode cs)).toNat →
    (encode (counted cs)).length + c.utf8Size < 2 ^ 32

/-- The loop stops at a character that ends behind the length. -/
theorem copy_step_cut {bytes tail : List UInt8} {c : Char} {slen : UInt32} {s : Copying}
    (hi : s.i.toNat = bytes.length) (hlong : 1 < c.utf8Size) (hcross : slen.toNat < bytes.length + c.utf8Size)
    (hbelow : bytes.length + c.utf8Size < 2 ^ 32) :
    copy_step (bytes ++ String.utf8EncodeChar c ++ tail) slen s = .ok none := by
  obtain ⟨b, bs, hbytes, hleads⟩ := leads_utf8EncodeChar c
  have hget : (bytes ++ String.utf8EncodeChar c ++ tail ++ [0])[s.i.toNat]? = some b := by
    simp [hi, hbytes]
  have hblank : ¬blank c = true := by
    intro hc
    have hone := utf8Size_of_blank (Or.inl hc)
    omega
  have hspace : c ≠ ' ' := by
    intro hc
    have hone := utf8Size_of_blank (Or.inr hc)
    omega
  unfold copy_step
  rw [hget, Option.elim_some, ok_bind, if_neg (mt hleads.blank_iff.mp hblank), if_neg (mt hleads.space_iff.mp hspace),
    if_neg]
  rintro ⟨_, hle⟩
  rw [UInt32.le_iff_toNat_le, toNat_add_of_lt (by rw [hleads.width]; omega), hleads.width] at hle
  omega

theorem mem_of_mem_kept {flag : Bool} {c : Char} {cs : List Char} (hmem : c ∈ kept flag cs) : c ∈ cs := by
  induction cs generalizing flag with
  | nil => exact hmem
  | cons d cs ih =>
    rcases List.mem_append.mp hmem with hhead | htail
    · unfold emit at hhead
      split at hhead
      · cases hhead
      · rw [List.mem_singleton.mp hhead]
        exact List.mem_cons_self
    · exact List.mem_cons_of_mem d (ih htail)

/-- A string stored with its terminator is the string of the buffer. -/
theorem terminated_of_stores {dst bytes dst' : List UInt8} (hstores : Stores dst 0 (bytes ++ [0]) dst')
    (hzero : 0 ∉ bytes) : terminated dst' = bytes := by
  have htake := hstores.take
  rw [List.take_zero, List.nil_append] at htake
  rw [← List.take_append_drop (0 + (bytes ++ [0]).length) dst', htake, List.append_assoc, List.singleton_append]
  exact terminated_concat_zero hzero _

theorem length_le_length_encode (cs : List Char) : cs.length ≤ (encode cs).length := by
  induction cs with
  | nil => exact Nat.le_refl 0
  | cons c cs ih =>
    have hpos := Char.utf8Size_pos c
    rw [List.length_cons, encode_cons, List.length_append, String.length_utf8EncodeChar]
    omega

/-- Where the index does not wrap around, the result is that of the counted
    characters. -/
theorem utf8_strncpy_spec {cs : List Char} (hnul : '\x00' ∉ cs) {max : UInt32} (hmax : max ≠ 0)
    (hends : max.toNat ≤ (normalise (counted cs)).length ∨ Ends cs) {dest : List UInt8}
    (hroom : (encode ((normalise (counted cs)).take max.toNat)).length < dest.length) :
    ∃ dest', utf8_strncpy (some dest) (some (encode cs)) max = .ok (some dest') ∧
      terminated dest' = encode ((normalise (counted cs)).take max.toNat) := by
  obtain ⟨rest, hcs, hcross⟩ := whole_append (strlen (encode cs)).toNat cs
  change cs = counted cs ++ rest at hcs
  have hle : (encode (counted cs)).length ≤ (strlen (encode cs)).toNat := length_encode_whole_le _ cs
  rw [normalise_eq_kept] at hends hroom ⊢
  obtain ⟨used, s, hused, hadvanced, htaken, hend, hloop⟩ := copy_loop_spec [] (counted cs) (encode rest)
    (s := .start dest) rfl (by simpa using hle : _ ≤ (strlen (encode cs)).toNat) (by simp [Copying.start] : _ ≤ max)
    (by simpa [Copying.start] using Nat.le_of_lt hroom)
  rw [List.nil_append, ← encode_append, ← hcs] at hloop
  have hstop : ∀ fuel, copy_loop (encode cs) (strlen (encode cs)) max (fuel + 1) s = .ok s := by
    intro fuel
    rcases hend with rfl | hfull
    · by_cases hmore : s.i < strlen (encode cs) ∧ s.n < max
      · have hi : s.i.toNat = (encode (counted cs)).length := by simpa [Copying.start] using hadvanced.i
        have hn : s.n.toNat = (kept true (counted cs)).length := by simpa [Copying.start] using hadvanced.n
        have hindex := UInt32.lt_iff_toNat_lt.mp hmore.1
        have hbudget := UInt32.lt_iff_toNat_lt.mp hmore.2
        cases rest with
        | nil =>
          rw [List.append_nil] at hcs
          have hlength : (strlen (encode cs)).toNat ≤ (encode cs).length := by
            rw [strlen, UInt32.toNat_ofNat']
            exact Nat.mod_le _ _
          rw [hi, ← hcs] at hindex
          omega
        | cons c rest =>
          have hbelow := (hends.resolve_left (by omega)) c rest hcs (by omega)
          have hcross' := hcross c rfl
          change _ < (encode (counted cs)).length + c.utf8Size at hcross'
          have hsrc : encode cs = encode (counted cs) ++ String.utf8EncodeChar c ++ encode rest := by
            rw [List.append_assoc]
            exact (congrArg encode hcs).trans (encode_append _ _)
          have hcut : copy_step (encode (counted cs) ++ String.utf8EncodeChar c ++ encode rest)
              (strlen (encode cs)) s = .ok none := copy_step_cut hi (by omega) hcross' hbelow
          rw [← hsrc] at hcut
          exact copy_loop_break hcut fuel
      · exact copy_loop_done hmore _
    · apply copy_loop_done
      rintro ⟨_, hlt⟩
      rw [hfull] at hlt
      exact absurd hlt (UInt32.lt_irrefl max)
  have hfuel : used.length + 1 ≤ copy_fuel (strlen (encode cs)) max := by
    have hlen := hused.length_le
    have hbytes := length_le_length_encode (counted cs)
    unfold copy_fuel
    calc
      used.length + 1 ≤ ((strlen (encode cs)).toNat + 1) * 1 := by omega
      _ ≤ _ := Nat.mul_le_mul_left _ (by omega)
  obtain ⟨fuel, hfuel⟩ := Nat.exists_eq_add_of_le hfuel
  have hbytes : encode (kept true used) = encode ((kept true (counted cs)).take max.toNat) := by
    simpa [Copying.start] using congrArg encode htaken
  have hrun : copy_loop (encode cs) (strlen (encode cs)) max (copy_fuel (strlen (encode cs)) max)
      (.start dest) = .ok s := by
    rw [hfuel, show used.length + 1 + fuel = fuel + 1 + used.length by omega, hloop, hstop]
  have hstores : Stores dest 0 (encode ((kept true (counted cs)).take max.toNat)) s.dest := by
    rw [← hbytes]
    exact hadvanced.stores
  have hp : s.p = 0 + (encode ((kept true (counted cs)).take max.toNat)).length := by
    rw [← hbytes]
    exact hadvanced.p
  obtain ⟨dest', hblit, hlast⟩ := blit_stores
    (by rw [hstores.length, hp, List.length_singleton]; omega : s.p + [(0 : UInt8)].length ≤ s.dest.length)
  refine ⟨dest', ?_, ?_⟩
  · simp only [utf8_strncpy]
    rw [if_neg hmax, hrun, ok_bind, hblit, ok_bind]
  · rw [hp] at hlast
    apply terminated_of_stores (hstores.append hlast)
    apply zero_notMem_encode
    intro hmem
    obtain hmem := mem_of_mem_kept (List.mem_of_mem_take hmem)
    apply hnul
    rw [hcs]
    exact List.mem_append_left rest hmem

/-- With a buffer that holds the result and its terminator, the call succeeds and
    leaves the encoding of the first `max` characters of the normalised source. -/
def NormalisesThenTruncates (cs : List Char) (max : UInt32) : Prop :=
  ∀ dest, (encode ((normalise cs).take max.toNat)).length < dest.length →
    ∃ dest', utf8_strncpy (some dest) (some (encode cs)) max = .ok (some dest') ∧
      terminated dest' = encode ((normalise cs).take max.toNat)

/-- The characters that the 32-bit length counts give all that is asked for: `max`
    of them are kept, or no more are kept of the whole source. -/
def LengthSuffices (cs : List Char) (max : UInt32) : Prop :=
  (encode cs).length < 2 ^ 32 ∨ max.toNat ≤ (normalise (counted cs)).length ∨
    normalise (counted cs) = normalise cs

theorem counted_of_length_lt {cs : List Char} (hlt : (encode cs).length < 2 ^ 32) : counted cs = cs := by
  apply whole_of_length_le
  rw [strlen, UInt32.toNat_ofNat', Nat.mod_eq_of_lt hlt]

/-- The counted characters come first, also when the source is normalised. -/
theorem normalise_counted_append (cs : List Char) :
    ∃ rest, cs = counted cs ++ rest ∧
      normalise cs = normalise (counted cs) ++ kept ((counted cs).foldl after true) rest := by
  obtain ⟨rest, hcs, _⟩ := whole_append (strlen (encode cs)).toNat cs
  change cs = counted cs ++ rest at hcs
  refine ⟨rest, hcs, ?_⟩
  rw [normalise_eq_kept, normalise_eq_kept, ← kept_append, ← hcs]

theorem LengthSuffices.take_eq {cs : List Char} {max : UInt32} (h : LengthSuffices cs max) :
    (normalise (counted cs)).take max.toNat = (normalise cs).take max.toNat := by
  rcases h with hlt | hmany | hsame
  · rw [counted_of_length_lt hlt]
  · obtain ⟨rest, _, hnorm⟩ := normalise_counted_append cs
    rw [hnorm, List.take_append_of_le_length hmany]
  · rw [hsame]

theorem LengthSuffices.ends {cs : List Char} {max : UInt32} (h : LengthSuffices cs max) :
    max.toNat ≤ (normalise (counted cs)).length ∨ Ends cs := by
  rcases h with hlt | hmany | hsame
  · right
    intro c rest hcs
    rw [counted_of_length_lt hlt, List.self_eq_append_right] at hcs
    cases hcs
  · exact Or.inl hmany
  · right
    intro c rest hcs hbegins
    have hslen := (strlen (encode cs)).toNat_lt
    have hnone : emit ((counted cs).foldl after true) c = [] := by
      have hnorm := normalise_eq_kept cs
      rw [hcs, kept_append, ← hcs, ← normalise_eq_kept, hsame, List.self_eq_append_right, kept] at hnorm
      exact (List.append_eq_nil_iff.mp hnorm).1
    have hsize : c.utf8Size = 1 := by
      unfold emit at hnone
      split at hnone
      · rename_i hdropped
        exact utf8Size_of_blank (hdropped.imp_right And.left)
      · cases hnone
    omega

theorem ends_of_length {cs : List Char} (hlow : (strlen (encode cs)).toNat + 3 < 2 ^ 32) : Ends cs := by
  intro c rest _ hbegins
  have hsize := Char.utf8Size_le_four c
  omega

/-- The call normalises and truncates where the 32-bit length suffices. Where the
    index cannot wrap around, it does so nowhere else. -/
theorem utf8_strncpy_normalises_iff {cs : List Char} (hnul : '\x00' ∉ cs) {max : UInt32} (hmax : 1 ≤ max) :
    (LengthSuffices cs max → NormalisesThenTruncates cs max) ∧
      ((strlen (encode cs)).toNat + 3 < 2 ^ 32 → NormalisesThenTruncates cs max → LengthSuffices cs max) := by
  have hmax : max ≠ 0 := by
    rintro rfl
    exact absurd hmax (by decide)
  constructor
  · intro hsuffices dest hroom
    have htake := hsuffices.take_eq
    rw [← htake] at hroom ⊢
    exact utf8_strncpy_spec hnul hmax hsuffices.ends hroom
  · intro hlow hcopies
    by_contra hnot
    unfold LengthSuffices at hnot
    push Not at hnot
    obtain ⟨_, hfew, hmore⟩ := hnot
    obtain ⟨rest, _, hnorm⟩ := normalise_counted_append cs
    have hall : (normalise (counted cs)).take max.toNat = normalise (counted cs) :=
      List.take_of_length_le (Nat.le_of_lt hfew)
    -- the source has a character to give that the call never reaches
    have hsplit : (normalise cs).take max.toNat = normalise (counted cs) ++
        (kept ((counted cs).foldl after true) rest).take (max.toNat - (normalise (counted cs)).length) := by
      rw [hnorm, List.take_append, hall]
    have hlonger : (encode (normalise (counted cs))).length < (encode ((normalise cs).take max.toNat)).length := by
      have hnonempty : (kept ((counted cs).foldl after true) rest).take
          (max.toNat - (normalise (counted cs)).length) ≠ [] := by
        rw [ne_eq, List.take_eq_nil_iff]
        rintro (hzero | hnil)
        · omega
        · rw [hnil, List.append_nil] at hnorm
          exact hmore hnorm.symm
      have hpos := length_encode_pos hnonempty
      rw [hsplit, encode_append, List.length_append]
      omega
    obtain ⟨buffer, hroom⟩ : ∃ buffer : List UInt8, (encode ((normalise cs).take max.toNat)).length < buffer.length :=
      ⟨List.replicate _ 0, by rw [List.length_replicate]; exact Nat.lt_succ_self _⟩
    obtain ⟨dest, hcopy, hterminated⟩ := hcopies buffer hroom
    have hroom' : (encode ((normalise (counted cs)).take max.toNat)).length < buffer.length := by
      rw [hall]
      omega
    obtain ⟨dest', hcopy', hterminated'⟩ := utf8_strncpy_spec hnul hmax (Or.inr (ends_of_length hlow)) hroom'
    rw [hcopy] at hcopy'
    obtain rfl : dest = dest' := Option.some.inj (Except.ok.inj hcopy')
    rw [hall, hterminated] at hterminated'
    rw [hterminated'] at hlonger
    exact absurd hlonger (Nat.lt_irrefl _)

/-- Spaces in front, a run of spaces broken by a line feed, and a character of two
    bytes. -/
theorem utf8_strncpy_normalises_words :
    NormalisesThenTruncates [' ', 'a', ' ', '\n', ' ', 'b', 'é', 'c'] 4 ∧
      (normalise [' ', 'a', ' ', '\n', ' ', 'b', 'é', 'c']).take 4 = ['a', ' ', 'b', 'é'] :=
  ⟨(utf8_strncpy_normalises_iff (by decide) (by decide)).1 (Or.inl (by decide)), by decide⟩

/-- Nothing is copied of a source whose length is 0 in 32 bits. -/
theorem utf8_strncpy_of_strlen_eq_zero {dest src : List UInt8} (hzero : strlen src = 0) {max : UInt32}
    (hmax : max ≠ 0) :
    utf8_strncpy (some dest) (some src) max = blit dest 0 [0] >>= fun dest => .ok (some dest) := by
  simp only [utf8_strncpy]
  rw [if_neg hmax, hzero, copy_loop_done (by simp [Copying.start]), ok_bind]
  rfl

theorem length_encode_replicate (n : Nat) : (encode (List.replicate n 'a')).length = n := by
  induction n with
  | zero => rfl
  | succ n ih =>
    rw [List.replicate_succ, encode_cons, List.length_append, ih, String.length_utf8EncodeChar]
    exact Nat.add_comm 1 n

theorem not_normalises_of_wrapped {n : Nat} (hpos : 0 < n) (hwrapped : n % 2 ^ 32 = 0) :
    ¬NormalisesThenTruncates (List.replicate n 'a') 1 := by
  have hzero : strlen (encode (List.replicate n 'a')) = 0 := by
    rw [← UInt32.toNat_inj, strlen, UInt32.toNat_ofNat', length_encode_replicate]
    exact hwrapped
  obtain ⟨k, rfl⟩ := Nat.exists_eq_add_of_lt hpos
  have hfirst : (normalise (List.replicate (0 + k + 1) 'a')).take (1 : UInt32).toNat = ['a'] := by
    rw [normalise_eq_kept, List.replicate_succ]
    rfl
  intro hcopies
  obtain ⟨dest', hcopy, hterminated⟩ := hcopies [1, 1] (by rw [hfirst]; decide)
  rw [utf8_strncpy_of_strlen_eq_zero hzero (by decide)] at hcopy
  obtain rfl : [0, 1] = dest' := Option.some.inj (Except.ok.inj hcopy)
  rw [hfirst] at hterminated
  exact absurd hterminated (by decide)

/-- Of 2^32 letters not one is copied. -/
theorem long_source_not_copied : ¬NormalisesThenTruncates (List.replicate (2 ^ 32) 'a') 1 :=
  not_normalises_of_wrapped (Nat.two_pow_pos 32) (Nat.mod_self _)

end code_tools.utf8str
