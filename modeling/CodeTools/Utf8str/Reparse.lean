import CodeTools.Utf8str.Units

/-!
# Reading the output again

Counting and copying what `utf8_strncpy` has written. The output is cut at the
same places as the source when it is read a second time.
-/

namespace code_tools.utf8str

open cmem cstring

/-- With a buffer that is large enough the call leaves the string `out`. -/
def Copies (src : List UInt8) (max : UInt32) (out : List UInt8) : Prop :=
  ∃ room, ∀ dest, room ≤ dest.length →
    ∃ dest', utf8_strncpy (some dest) (some src) max = .ok (some dest') ∧ terminated dest' = out

/-- `utf8_strlen` gets to the last byte of `out` and has then counted at most `max`
    characters. -/
def CountsWhole (out : List UInt8) (max : UInt32) : Prop :=
  ∃ c, strlen_end out = .ok c ∧ c.i.toNat = out.length ∧ utf8_strlen (some out) = .ok c.ulen ∧ c.ulen ≤ max

/-- What is copied is counted whole, is copied as it is, and gives for a smaller
    maximum what the source gives. -/
def Consistent (src : List UInt8) (max : UInt32) : Prop :=
  ∃ out, Copies src max out ∧ CountsWhole out max ∧ Copies out max out ∧
    ∀ m, 1 ≤ m → m < max → ∃ cut, Copies src m cut ∧ Copies out m cut

variable {src : List UInt8} {slen max : UInt32}

theorem ne_zero_of_one_le (hmax : 1 ≤ max) : max ≠ 0 := by
  rintro rfl
  exact absurd hmax (by decide)

theorem Copies.unique {out out' : List UInt8} (h : Copies src max out) (h' : Copies src max out') : out = out' := by
  obtain ⟨room, hroom⟩ := h
  obtain ⟨room', hroom'⟩ := h'
  obtain ⟨dest, hcall, rfl⟩ := hroom (List.replicate (room + room') 0) (by rw [List.length_replicate]; omega)
  obtain ⟨dest', hcall', rfl⟩ := hroom' (List.replicate (room + room') 0) (by rw [List.length_replicate]; omega)
  rw [hcall] at hcall'
  obtain rfl : dest = dest' := Option.some.inj (Except.ok.inj hcall')
  rfl

/-- The output is the string of the characters that are taken. -/
theorem copies_characters (hmax : max ≠ 0) (hwhole : ∀ bytes ∈ characters src max, Whole bytes) :
    Copies src max (terminated (characters src max).flatten) := by
  refine ⟨(copied src max).flatten.length + 1, ?_⟩
  intro dest hroom
  have hcall := utf8_strncpy_characters src hmax dest (Nat.lt_of_succ_le hroom)
  rw [if_pos hwhole] at hcall
  obtain ⟨dest', hcopy, hstores⟩ := hcall
  refine ⟨dest', hcopy, ?_⟩
  have htake := hstores.take
  rw [List.take_zero, List.nil_append] at htake
  rw [← List.take_append_drop (0 + ((characters src max).flatten ++ [0]).length) dest', htake, List.append_assoc,
    List.singleton_append, terminated_append_zero]

/-- A call that returns has taken no character that runs over the terminator. -/
theorem Copies.whole {out : List UInt8} (h : Copies src max out) (hmax : max ≠ 0) :
    ∀ bytes ∈ characters src max, Whole bytes := by
  by_contra hcut
  obtain ⟨room, hroom⟩ := h
  have hfault := utf8_strncpy_characters src hmax (List.replicate (room + (copied src max).flatten.length + 1) 0)
    (by rw [List.length_replicate]; omega)
  rw [if_neg hcut] at hfault
  obtain ⟨dest', hcall, _⟩ := hroom (List.replicate (room + (copied src max).flatten.length + 1) 0)
    (by rw [List.length_replicate]; omega)
  rw [hfault] at hcall
  cases hcall

/-! ## Cutting the output -/

theorem Whole.width {bytes : List UInt8} {c : UInt8} (hwhole : Whole bytes) (hhead : bytes.head? = some c) :
    (utf8_check c).toNat = bytes.length := by
  simpa [Whole, hhead] using hwhole

theorem Whole.head {bytes : List UInt8} (hwhole : Whole bytes) : ∃ c rest, bytes = c :: rest := by
  cases bytes with
  | nil => simp [Whole] at hwhole
  | cons c rest => exact ⟨c, rest, rfl⟩

theorem toNat_strlen_of_lt (hlow : src.length < 2 ^ 32) : (strlen src).toNat = src.length := by
  rw [strlen, UInt32.toNat_ofNat', Nat.mod_eq_of_lt hlow]

theorem toNat_ofNat_of_lt {n : Nat} (hlt : n < 2 ^ 32) : (UInt32.ofNat n).toNat = n := by
  rw [UInt32.toNat_ofNat', Nat.mod_eq_of_lt hlt]

/-- Characters of the shape that is copied are taken as they are. -/
theorem characters_from_flatten (hlow : src.length < 2 ^ 32) {before : List UInt8} {chars : List (List UInt8)}
    {flag : Bool} (hsrc : src = before ++ chars.flatten) (hshaped : Shaped flag chars)
    (hwhole : ∀ bytes ∈ chars, Whole bytes) (budget : Nat) :
    characters_from src (strlen src) budget flag (UInt32.ofNat before.length) = chars.take budget := by
  have hslen := toNat_strlen_of_lt hlow
  induction chars generalizing before flag budget with
  | nil =>
    rw [List.take_nil, characters_from_done]
    rw [List.flatten_nil, List.append_nil] at hsrc
    rw [UInt32.lt_iff_toNat_lt, hslen, toNat_ofNat_of_lt (by rw [← hsrc]; exact hlow), hsrc]
    omega
  | cons bytes chars ih =>
    by_cases hzero : budget = 0
    · rw [hzero, List.take_zero, characters_from_done (by omega)]
    obtain ⟨c, hhead, hblank, hagain, hrest⟩ := hshaped
    obtain ⟨hfirst, hothers⟩ := List.forall_mem_cons.mp hwhole
    have hwidth := hfirst.width hhead
    obtain ⟨c', rest, hbytes⟩ := hfirst.head
    have hlength : src.length = before.length + (bytes.length + chars.flatten.length) := by
      rw [hsrc, List.length_append, List.flatten_cons, List.length_append]
    have hindex : (UInt32.ofNat before.length).toNat = before.length := toNat_ofNat_of_lt (by omega)
    have hpos : 0 < bytes.length := by
      rw [hbytes, List.length_cons]
      omega
    have hthen : (UInt32.ofNat (before ++ bytes).length).toNat = before.length + bytes.length := by
      rw [List.length_append]
      exact toNat_ofNat_of_lt (by omega)
    have hnext : UInt32.ofNat before.length + utf8_check c = UInt32.ofNat (before ++ bytes).length := by
      rw [← UInt32.toNat_inj, toNat_add_of_lt (by omega), hthen, hindex, hwidth]
    have htaken : Taken src (strlen src) flag (UInt32.ofNat before.length) c bytes (decide (c = SPACE))
        (UInt32.ofNat (before ++ bytes).length) := by
      refine ⟨?_, hblank, hagain, rfl, hnext.symm, ?_, by omega, ?_⟩
      · rw [hindex, hsrc, List.getElem?_append_right (Nat.le_refl _), Nat.sub_self, List.flatten_cons, hbytes]
        rw [hbytes, List.head?_cons] at hhead
        simpa using hhead
      · rw [UInt32.le_iff_toNat_le, hslen, hthen]
        omega
      · rw [hindex, hwidth, hsrc, List.append_assoc, List.drop_left, List.flatten_cons, List.append_assoc,
          List.take_left]
    obtain ⟨k, rfl⟩ := Nat.exists_eq_succ_of_ne_zero hzero
    rw [characters_from_take _ (Nat.succ_pos k) htaken.look_eq, if_pos hfirst, List.take_succ_cons, Nat.succ_sub_one,
      ih _ hrest hothers k]
    · rw [hsrc, List.flatten_cons, List.append_assoc]
    · rw [UInt32.lt_iff_toNat_lt, hslen, hindex]
      omega

/-- The output has the first characters of the source. -/
theorem characters_flatten (hlow : (characters src max).flatten.length < 2 ^ 32)
    (hwhole : ∀ bytes ∈ characters src max, Whole bytes) (m : UInt32) :
    characters (characters src max).flatten m = (characters src max).take m.toNat := by
  exact characters_from_flatten hlow (List.nil_append _).symm (shaped_characters_from (toNat_strlen_le src)) hwhole
    m.toNat

/-- A smaller maximum gives fewer characters. -/
theorem characters_take {m : UInt32} (hm : m ≤ max) : characters src m = (characters src max).take m.toNat :=
  characters_from_take_budget (UInt32.le_iff_toNat_le.mp hm)

/-! ## Counting the output -/

theorem strlen_loop_done {s : Counting} (hdone : ¬s.i < slen) (fuel : Nat) : strlen_loop src slen fuel s = .ok s := by
  cases fuel with
  | zero => rw [strlen_loop, if_neg hdone]
  | succ fuel => rw [strlen_loop, if_neg hdone]

/-- One round on a character that the counted bytes contain. -/
theorem strlen_loop_unit (before bytes tail : List UInt8) (hsrc : src = before ++ bytes ++ tail) (hwhole : Whole bytes)
    (hfits : before.length + bytes.length ≤ slen.toNat) (fuel : Nat) (n : UInt32) :
    strlen_loop src slen (fuel + 1) { i := UInt32.ofNat before.length, ulen := n } =
      strlen_loop src slen fuel { i := UInt32.ofNat (before ++ bytes).length, ulen := n + 1 } := by
  have hslen := slen.toNat_lt
  obtain ⟨c, rest, hbytes⟩ := hwhole.head
  have hwidth := hwhole.width (by rw [hbytes, List.head?_cons] : bytes.head? = some c)
  have hpos : 0 < bytes.length := by
    rw [hbytes, List.length_cons]
    omega
  have hindex : (UInt32.ofNat before.length).toNat = before.length := toNat_ofNat_of_lt (by omega)
  have hthen : (UInt32.ofNat (before ++ bytes).length).toNat = before.length + bytes.length := by
    rw [List.length_append]
    exact toNat_ofNat_of_lt (by omega)
  have hnext : UInt32.ofNat before.length + utf8_check c = UInt32.ofNat (before ++ bytes).length := by
    rw [← UInt32.toNat_inj, toNat_add_of_lt (by omega), hthen, hindex, hwidth]
  have hget : (src ++ [0])[(UInt32.ofNat before.length).toNat]? = some c := by
    simp [hindex, hsrc, hbytes]
  rw [strlen_loop, if_pos (by rw [UInt32.lt_iff_toNat_lt, hindex]; omega), hget, Option.elim_some, ok_bind]
  dsimp only
  rw [if_pos (by rw [gt_iff_lt, UInt32.lt_iff_toNat_lt, hwidth, UInt32.toNat_zero]; exact hpos), hnext,
    if_pos (by rw [UInt32.le_iff_toNat_le, hthen]; exact hfits)]

theorem strlen_loop_flatten (before tail : List UInt8) {chars : List (List UInt8)}
    (hsrc : src = before ++ chars.flatten ++ tail) (hwhole : ∀ bytes ∈ chars, Whole bytes)
    (hfits : before.length + chars.flatten.length ≤ slen.toNat) (fuel : Nat) (n : UInt32) :
    strlen_loop src slen (fuel + chars.length) { i := UInt32.ofNat before.length, ulen := n } =
      strlen_loop src slen fuel
        { i := UInt32.ofNat (before ++ chars.flatten).length, ulen := n + UInt32.ofNat chars.length } := by
  induction chars generalizing before n with
  | nil =>
    rw [List.flatten_nil, List.append_nil, List.length_nil, Nat.add_zero, show UInt32.ofNat 0 = 0 from rfl,
      UInt32.add_zero]
  | cons bytes chars ih =>
    obtain ⟨hfirst, hothers⟩ := List.forall_mem_cons.mp hwhole
    rw [List.flatten_cons, List.length_append] at hfits
    rw [List.flatten_cons] at hsrc
    have hone := strlen_loop_unit before bytes (chars.flatten ++ tail) (by rw [hsrc]; simp : src = _) hfirst
      (by omega : _ ≤ slen.toNat) (fuel + chars.length) n
    have hmore := ih (before ++ bytes) (by rw [hsrc]; simp) hothers
      (by rw [List.length_append]; omega) (n + 1)
    have hcount : n + 1 + UInt32.ofNat chars.length = n + UInt32.ofNat (chars.length + 1) := by
      rw [UInt32.ofNat_add, UInt32.add_comm (UInt32.ofNat chars.length), UInt32.add_assoc]
      rfl
    rw [List.length_cons, ← Nat.add_assoc, hone, hmore, hcount, List.flatten_cons, List.append_assoc]

theorem length_le_length_flatten {chars : List (List UInt8)} (hwhole : ∀ bytes ∈ chars, Whole bytes) :
    chars.length ≤ chars.flatten.length := by
  induction chars with
  | nil => exact Nat.le_refl 0
  | cons bytes chars ih =>
    obtain ⟨hfirst, hothers⟩ := List.forall_mem_cons.mp hwhole
    obtain ⟨c, rest, hbytes⟩ := hfirst.head
    have hle := ih hothers
    rw [List.length_cons, List.flatten_cons, List.length_append, hbytes, List.length_cons]
    omega

/-- A string of whole characters is counted to its end. -/
theorem strlen_end_flatten {chars : List (List UInt8)} (hlow : chars.flatten.length < 2 ^ 32)
    (hwhole : ∀ bytes ∈ chars, Whole bytes) :
    strlen_end chars.flatten =
      .ok { i := UInt32.ofNat chars.flatten.length, ulen := UInt32.ofNat chars.length } := by
  have hslen := toNat_strlen_of_lt hlow
  have hle := length_le_length_flatten hwhole
  obtain ⟨k, hk⟩ := Nat.exists_eq_add_of_le hle
  have hloop := strlen_loop_flatten [] [] (by simp : chars.flatten = _) hwhole
    (by rw [hslen]; simp : _ ≤ (strlen chars.flatten).toNat) (k + 1) 0
  unfold strlen_end
  rw [hslen, show chars.flatten.length + 1 = k + 1 + chars.length by omega]
  change strlen_loop _ _ _ { i := UInt32.ofNat ([] : List UInt8).length, ulen := 0 } = _
  rw [hloop, strlen_loop_done, List.nil_append, UInt32.zero_add]
  rw [List.nil_append, UInt32.lt_iff_toNat_lt, hslen, toNat_ofNat_of_lt hlow]
  omega

/-! ## When it is consistent -/

/-- The first piece that an element is in. -/
theorem exists_first_mem {α : Type*} {x : α} {pieces : List (List α)} (hmem : x ∈ pieces.flatten) :
    ∃ before piece after, pieces = before ++ piece :: after ∧ x ∉ before.flatten ∧ x ∈ piece := by
  induction pieces with
  | nil => cases hmem
  | cons piece pieces ih =>
    by_cases hx : x ∈ piece
    · exact ⟨[], piece, pieces, rfl, List.not_mem_nil, hx⟩
    · obtain ⟨before, first, after, rfl, hbefore, hfirst⟩ :=
        ih ((List.mem_append.mp hmem).resolve_left hx)
      refine ⟨piece :: before, first, after, rfl, ?_, hfirst⟩
      rw [List.flatten_cons, List.mem_append]
      exact not_or.mpr ⟨hx, hbefore⟩

/-- The round at a character that ends one byte too early leaves the index behind the
    string, or wraps it around to the start. -/
theorem strlen_loop_at_cut {whole cut : List UInt8} {c : UInt8} (hsrc : src = whole ++ cut)
    (hlow : src.length < 2 ^ 32) (hhead : cut.head? = some c) (hwidth : (utf8_check c).toNat = cut.length + 1)
    {fuel : Nat} {n : UInt32} {s : Counting}
    (hloop : strlen_loop src (strlen src) (fuel + 1) { i := UInt32.ofNat whole.length, ulen := n } = .ok s) :
    s.i.toNat = src.length + 1 ∨ ∃ n', strlen_loop src (strlen src) fuel { i := 0, ulen := n' } = .ok s := by
  have hslen := toNat_strlen_of_lt hlow
  have hlength : src.length = whole.length + cut.length := by rw [hsrc, List.length_append]
  obtain ⟨rest, hcut⟩ := List.head?_eq_some_iff.mp hhead
  have hpos : 0 < cut.length := by
    rw [hcut, List.length_cons]
    omega
  have hindex : (UInt32.ofNat whole.length).toNat = whole.length := toNat_ofNat_of_lt (by omega)
  have hlive : UInt32.ofNat whole.length < strlen src := by
    rw [UInt32.lt_iff_toNat_lt, hslen, hindex]
    omega
  have hget : (src ++ [0])[(UInt32.ofNat whole.length).toNat]? = some c := by
    rw [hindex, hsrc]
    simp [hcut]
  rw [strlen_loop, if_pos hlive, hget, Option.elim_some, ok_bind] at hloop
  dsimp only at hloop
  rw [if_pos (by rw [gt_iff_lt, UInt32.lt_iff_toNat_lt, hwidth, UInt32.toNat_zero]; omega)] at hloop
  have hmod := UInt32.toNat_add (UInt32.ofNat whole.length) (utf8_check c)
  rw [hindex, hwidth] at hmod
  by_cases hwraps : src.length + 1 = 2 ^ 32
  · have hzero : UInt32.ofNat whole.length + utf8_check c = 0 := by
      rw [← UInt32.toNat_inj, hmod, show whole.length + (cut.length + 1) = 2 ^ 32 by omega]
      rfl
    rw [hzero, if_pos (by rw [UInt32.le_iff_toNat_le]; exact Nat.zero_le _)] at hloop
    exact .inr ⟨_, hloop⟩
  · rw [Nat.mod_eq_of_lt (by omega)] at hmod
    rw [if_neg (by rw [UInt32.le_iff_toNat_le, hslen, hmod]; omega)] at hloop
    obtain rfl := Except.ok.inj hloop
    rw [hmod]
    omega

/-- A string that ends inside a character by one byte is never counted to its end. -/
theorem strlen_loop_cut {chars : List (List UInt8)} {cut : List UInt8} {c : UInt8} (hsrc : src = chars.flatten ++ cut)
    (hlow : src.length < 2 ^ 32) (hwhole : ∀ bytes ∈ chars, Whole bytes) (hhead : cut.head? = some c)
    (hwidth : (utf8_check c).toNat = cut.length + 1) (before after : List (List UInt8))
    (hchars : chars = before ++ after) {fuel : Nat} {n : UInt32} {s : Counting}
    (hloop : strlen_loop src (strlen src) fuel { i := UInt32.ofNat before.flatten.length, ulen := n } = .ok s) :
    s.i.toNat ≠ src.length := by
  have hslen := toNat_strlen_of_lt hlow
  have hpos : 0 < cut.length := by
    obtain ⟨rest, rfl⟩ := List.head?_eq_some_iff.mp hhead
    exact Nat.succ_pos _
  induction fuel generalizing before after n with
  | zero =>
    have hlength : src.length = before.flatten.length + after.flatten.length + cut.length := by
      rw [hsrc, hchars, List.flatten_append, List.length_append, List.length_append]
    have hlive : UInt32.ofNat before.flatten.length < strlen src := by
      rw [UInt32.lt_iff_toNat_lt, hslen, toNat_ofNat_of_lt (by omega)]
      omega
    rw [strlen_loop, if_pos hlive] at hloop
    cases hloop
  | succ fuel ih =>
    cases after with
    | cons bytes after =>
      have hlength : src.length = before.flatten.length + (bytes.length + after.flatten.length) + cut.length := by
        rw [hsrc, hchars, List.flatten_append, List.flatten_cons, List.length_append, List.length_append,
          List.length_append]
      have hmem : bytes ∈ chars := by
        rw [hchars]
        exact List.mem_append_right before List.mem_cons_self
      rw [strlen_loop_unit before.flatten bytes (after.flatten ++ cut) (by rw [hsrc, hchars]; simp) (hwhole bytes hmem)
        (by rw [hslen]; omega)] at hloop
      have hnext : before.flatten ++ bytes = (before ++ [bytes]).flatten := by simp
      rw [hnext] at hloop
      exact ih (before ++ [bytes]) after (by rw [hchars, List.append_assoc]; rfl) hloop
    | nil =>
      rw [List.append_nil] at hchars
      obtain hbehind | ⟨n', hagain⟩ := strlen_loop_at_cut (hchars ▸ hsrc) hlow hhead hwidth hloop
      · omega
      · exact ih [] chars rfl hagain

theorem consistent_of_staysInSource (hmax : max ≠ 0) (hstays : StaysInSource src max)
    (hlow : (characters src max).flatten.length < 2 ^ 32) : Consistent src max := by
  have hwhole := hstays.whole
  have hout : ∀ m : UInt32, m ≤ max → m ≠ 0 → Copies src m ((characters src max).take m.toNat).flatten ∧
      Copies (characters src max).flatten m ((characters src max).take m.toNat).flatten := by
    intro m hm hzero
    have hpart : ∀ bytes ∈ (characters src max).take m.toNat, Whole bytes :=
      fun bytes hmem => hwhole bytes (List.mem_of_mem_take hmem)
    have hclean : 0 ∉ ((characters src max).take m.toNat).flatten := by
      intro hmem
      obtain ⟨bytes, hbytes, hin⟩ := List.mem_flatten.mp hmem
      exact hstays (List.mem_flatten.mpr ⟨bytes, List.mem_of_mem_take hbytes, hin⟩)
    have hsource := copies_characters hzero (by rw [characters_take hm]; exact hpart :
      ∀ bytes ∈ characters src m, Whole bytes)
    have houtput := copies_characters hzero (by rw [characters_flatten hlow hwhole]; exact hpart :
      ∀ bytes ∈ characters (characters src max).flatten m, Whole bytes)
    rw [characters_take hm, terminated_of_notMem hclean] at hsource
    rw [characters_flatten hlow hwhole, terminated_of_notMem hclean] at houtput
    exact ⟨hsource, houtput⟩
  have hall : (characters src max).take max.toNat = characters src max :=
    (characters_take (UInt32.le_refl max)).symm
  have hmany : (characters src max).length ≤ max.toNat := by
    rw [← hall, List.length_take]
    exact Nat.min_le_left _ _
  have hcopied := hout max (UInt32.le_refl max) hmax
  rw [hall] at hcopied
  refine ⟨(characters src max).flatten, hcopied.1, ?_, hcopied.2, ?_⟩
  · have hend := strlen_end_flatten hlow hwhole
    refine ⟨_, hend, toNat_ofNat_of_lt hlow, by rw [utf8_strlen, hend]; rfl, ?_⟩
    rw [UInt32.le_iff_toNat_le, toNat_ofNat_of_lt (Nat.lt_of_le_of_lt hmany max.toNat_lt)]
    exact hmany
  · intro m hone hm
    exact ⟨_, hout m (UInt32.le_of_lt hm) (ne_zero_of_one_le hone)⟩

/-- A character with the terminator in it ends there. -/
theorem cut_of_zero_mem (hsrc : 0 ∉ src) {bytes : List UInt8} (hmem : bytes ∈ characters src max) (hzero : 0 ∈ bytes) :
    ∃ cut c, bytes = cut ++ [0] ∧ 0 ∉ cut ∧ cut.head? = some c ∧ bytes.head? = some c := by
  obtain ⟨flag, c, flag', i, i', _, htaken⟩ := mem_characters_from (toNat_strlen_le src) hmem
  obtain ⟨hin, hget⟩ := List.getElem?_eq_some_iff.mp htaken.lead
  have hover : src.length < i.toNat + (utf8_check c).toNat := by
    by_contra hfits
    rw [(htaken.inside (by omega)).1] at hzero
    exact hsrc (List.mem_of_mem_drop (List.mem_of_mem_take hzero))
  have hhead : (src.drop i.toNat).head? = some c := by
    rw [List.head?_drop]
    exact htaken.lead
  refine ⟨src.drop i.toNat, c, htaken.runs_over hover, fun hmem => hsrc (List.mem_of_mem_drop hmem), hhead, ?_⟩
  rw [htaken.runs_over hover, List.head?_append, hhead]
  rfl

theorem Consistent.staysInSource (hsrc : 0 ∉ src) (hmax : max ≠ 0) (h : Consistent src max) :
    StaysInSource src max := by
  obtain ⟨out, hcopies, ⟨s, hend, hlast, _, _⟩, _, _⟩ := h
  have hwhole := hcopies.whole hmax
  by_contra hzero
  obtain ⟨before, bytes, after, hchars, hbefore, hbytes⟩ := exists_first_mem (not_not.mp hzero)
  have hmem : bytes ∈ characters src max := by
    rw [hchars]
    exact List.mem_append_right before List.mem_cons_self
  obtain ⟨cut, c, hcut, hclean, hhead, hlead⟩ := cut_of_zero_mem hsrc hmem hbytes
  have hout : out = before.flatten ++ cut := by
    rw [hcopies.unique (copies_characters hmax hwhole), hchars, List.flatten_append, List.flatten_cons, hcut,
      ← List.append_assoc, ← List.append_assoc, List.append_assoc _ [0], List.singleton_append,
      terminated_concat_zero]
    rw [List.mem_append]
    exact not_or.mpr ⟨hbefore, hclean⟩
  have hwidth : (utf8_check c).toNat = cut.length + 1 := by
    rw [(hwhole bytes hmem).width hlead, hcut, List.length_append, List.length_singleton]
  have hlow : out.length < 2 ^ 32 := by
    rw [← hlast]
    exact s.i.toNat_lt
  refine strlen_loop_cut hout hlow ?_ hhead hwidth [] before rfl hend hlast
  intro piece hpiece
  apply hwhole piece
  rw [hchars]
  exact List.mem_append_left _ hpiece

/-- Copying is idempotent and agrees with counting exactly where no character that
    is taken has the terminator in it and the characters have less than 2^32 bytes. -/
theorem utf8_strncpy_consistent_iff (hsrc : 0 ∉ src) (hmax : 1 ≤ max) :
    Consistent src max ↔ StaysInSource src max ∧ (characters src max).flatten.length < 2 ^ 32 := by
  have hmax := ne_zero_of_one_le hmax
  constructor
  · intro h
    have hstays := h.staysInSource hsrc hmax
    refine ⟨hstays, ?_⟩
    obtain ⟨out, hcopies, ⟨s, _, hlast, _, _⟩, _, _⟩ := h
    have hout := hcopies.unique (copies_characters hmax hstays.whole)
    rw [terminated_of_notMem hstays] at hout
    rw [← hout, ← hlast]
    exact s.i.toNat_lt
  · rintro ⟨hstays, hlow⟩
    exact consistent_of_staysInSource hmax hstays hlow

/-- A letter, a sequence that swallows a space, and a sequence that is cut off. -/
theorem utf8_strncpy_consistent_malformed : Consistent [97, 0xc3, 32, 32, 0xe3, 98] 3 :=
  (utf8_strncpy_consistent_iff (by decide) (by decide)).mpr (staysInSource_of_strlen (by decide) (by decide))

/-- Line feeds are passed over. -/
theorem characters_from_line_feeds {count : Nat} {tail : List UInt8} (hsrc : src = List.replicate count LF ++ tail)
    (hslen : count ≤ slen.toNat) {budget : Nat} (hbudget : 0 < budget) {flag : Bool} {i : UInt32}
    (hi : i.toNat ≤ count) :
    characters_from src slen budget flag i = characters_from src slen budget flag (UInt32.ofNat count) := by
  have hlow := slen.toNat_lt
  obtain ⟨k, hk⟩ := Nat.exists_eq_add_of_le hi
  induction k generalizing i with
  | zero =>
    have hindex : (UInt32.ofNat count).toNat = count := toNat_ofNat_of_lt (by omega)
    rw [← UInt32.toNat_inj.mp (by omega : i.toNat = (UInt32.ofNat count).toNat)]
  | succ k ih =>
    have hlive : i < slen := by
      rw [UInt32.lt_iff_toNat_lt]
      omega
    have hlook : look src slen flag i = .skip := by
      have hc : (src ++ [0]).getD i.toNat 0 = LF := by
        rw [hsrc, List.append_assoc, List.getD_eq_getElem?_getD,
          List.getElem?_append_left (by rw [List.length_replicate]; omega), List.getElem?_replicate,
          if_pos (by omega), Option.getD_some]
      unfold look
      rw [hc]
      rfl
    have hsucc := toNat_succ_of_lt hlive
    rw [characters_from_skip hlive hbudget hlook, ih (by omega) (by omega)]

/-- 2^32 - 2 line feeds and a byte that announces two: the index wraps around, the
    terminator is copied as the second byte, and `utf8_strlen` does not count the
    string that is left. -/
theorem wrapped_source_not_consistent : ¬Consistent (List.replicate (2 ^ 32 - 2) LF ++ [0xc3]) 1 := by
  intro h
  generalize hcount : 2 ^ 32 - 2 = count at h
  have hnul : 0 ∉ List.replicate count LF ++ [0xc3] := by
    rw [List.mem_append, List.mem_replicate]
    rintro (⟨_, hfeed⟩ | hlead)
    · exact absurd hfeed (by decide)
    · exact absurd hlead (by decide)
  have hlength : (List.replicate count LF ++ [(0xc3 : UInt8)]).length = count + 1 := by
    rw [List.length_append, List.length_replicate, List.length_singleton]
  have hslen : (strlen (List.replicate count LF ++ [0xc3])).toNat = count + 1 := by
    rw [toNat_strlen_of_lt (by omega), hlength]
  have hindex : (UInt32.ofNat count).toNat = count := toNat_ofNat_of_lt (by omega)
  have hlive : UInt32.ofNat count < strlen (List.replicate count LF ++ [0xc3]) := by
    rw [UInt32.lt_iff_toNat_lt, hslen, hindex]
    exact Nat.lt_succ_self count
  have hwraps : UInt32.ofNat count + 2 = 0 := by
    rw [← hcount]
    rfl
  have htaken : Taken (List.replicate count LF ++ [0xc3]) (strlen (List.replicate count LF ++ [0xc3])) true
      (UInt32.ofNat count) 0xc3 [0xc3, 0] false 0 := by
    refine ⟨?_, by decide, by decide, rfl, hwraps.symm, UInt32.le_iff_toNat_le.mpr (Nat.zero_le _), by decide, ?_⟩
    · rw [hindex, List.getElem?_append_right (by rw [List.length_replicate]), List.length_replicate, Nat.sub_self]
      rfl
    · rw [hindex, List.append_assoc, List.drop_append_of_le_length (by rw [List.length_replicate]),
        List.drop_of_length_le (by rw [List.length_replicate])]
      rfl
  apply (h.staysInSource hnul (by decide))
  unfold characters
  rw [characters_from_line_feeds rfl (by omega) (by decide) (Nat.zero_le count),
    characters_from_take hlive (by decide) htaken.look_eq]
  exact List.mem_append_left _ (by decide)

end code_tools.utf8str
