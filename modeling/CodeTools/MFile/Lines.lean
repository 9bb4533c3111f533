import CodeTools.MFile.Calls

/-!
# Reading lines

A text whose carriage returns all stand before line feeds is read line by line.
The byte that the handle holds back is then always a line feed, so each call
begins where the one before it stopped.
-/

namespace code_tools.mfile

open cmem machine

/-! ## The lines of a text -/

/-- Each line but the last ends with its line feed. -/
def lines : List UInt8 → List (List UInt8)
  | [] => []
  | c :: text =>
    if c = 10 then [c] :: lines text
    else
      match lines text with
      | [] => [[c]]
      | line :: rest => (c :: line) :: rest

/-- What comes before the end of a line. -/
def body (line : List UInt8) : List UInt8 := line.takeWhile fun c => c ≠ 10 ∧ c ≠ 13

theorem lines_append {line : List UInt8} (hline : 10 ∉ line) (rest : List UInt8) :
    lines (line ++ 10 :: rest) = (line ++ [10]) :: lines rest := by
  induction line with
  | nil => rw [List.nil_append, lines, if_pos rfl, List.nil_append]
  | cons c line ih =>
    obtain ⟨hc, hline⟩ := List.ne_and_not_mem_of_not_mem_cons hline
    rw [List.cons_append, lines, if_neg hc.symm, ih hline]
    rfl

/-- What has no line feed is one line, unless it is empty. -/
theorem lines_last {line : List UInt8} (hline : 10 ∉ line) :
    (lines line).headD [] = line ∧ (lines line).tail = [] ∧ (line ≠ [] → line ∈ lines line) := by
  induction line with
  | nil => exact ⟨rfl, rfl, fun hne => absurd rfl hne⟩
  | cons c line ih =>
    obtain ⟨hc, hline⟩ := List.ne_and_not_mem_of_not_mem_cons hline
    obtain ⟨hfirst, hothers, _⟩ := ih hline
    rw [lines, if_neg hc.symm]
    cases hlines : lines line with
    | nil =>
      rw [hlines, List.headD_nil] at hfirst
      rw [← hfirst]
      exact ⟨rfl, rfl, fun _ => List.mem_singleton_self _⟩
    | cons first others =>
      rw [hlines, List.headD_cons] at hfirst
      rw [hlines, List.tail_cons] at hothers
      rw [hfirst]
      exact ⟨rfl, hothers, fun _ => List.mem_cons_self⟩

/-- A text without NUL bytes whose carriage returns all stand before line feeds,
    with lines that a buffer of `n` bytes has room for. -/
structure Ordinary (n : Nat) (text : List UInt8) : Prop where
  no_nul : 0 ∉ text
  paired : ∀ i : Nat, text[i]? = some 13 → text[i + 1]? = some 10
  short : ∀ line ∈ lines text, (body line).length + 3 ≤ n

theorem Ordinary.after {n : Nat} {line rest : List UInt8} (hordinary : Ordinary n (line ++ 10 :: rest))
    (hline : 10 ∉ line) : Ordinary n rest := by
  refine ⟨fun hmem => hordinary.no_nul (by simp [hmem]), fun i hi => ?_, fun other hother => ?_⟩
  · have hshift : ∀ j, (line ++ 10 :: rest)[line.length + 1 + j]? = rest[j]? := by
      intro j
      rw [List.getElem?_append_right (by omega), show line.length + 1 + j - line.length = j + 1 by omega,
        List.getElem?_cons_succ]
    rw [← hshift]
    exact hordinary.paired (line.length + 1 + i) (by rw [hshift, hi])
  · apply hordinary.short
    rw [lines_append hline]
    exact List.mem_cons_of_mem _ hother

/-- How a line ends: with a line feed, with a carriage return before it, or with
    the text. -/
def Ends (terminator rest : List UInt8) : Prop :=
  terminator = [10] ∨ terminator = [13, 10] ∨ terminator = [] ∧ rest = []

/-- A byte that does not end a line or the text. -/
def Plain (c : UInt8) : Prop := c ≠ 0 ∧ c ≠ 10 ∧ c ≠ 13

theorem body_append {plain terminator rest : List UInt8} (hplain : ∀ c ∈ plain, Plain c)
    (hends : Ends terminator rest) : body (plain ++ terminator) = plain := by
  unfold body
  rw [List.takeWhile_append_of_pos (by
    intro c hc
    exact decide_eq_true (hplain c hc).2)]
  rcases hends with rfl | rfl | ⟨rfl, _⟩
  · simp
  · simp
  · simp

theorem Plain.notMem {plain : List UInt8} (hplain : ∀ c ∈ plain, Plain c) : 10 ∉ plain :=
  fun hmem => (hplain 10 hmem).2.1 rfl

/-- Where the first line stops. -/
theorem exists_cut {text : List UInt8} (hnul : 0 ∉ text)
    (hpaired : ∀ i : Nat, text[i]? = some 13 → text[i + 1]? = some 10) :
    ∃ plain terminator rest, text = plain ++ (terminator ++ rest) ∧ (∀ c ∈ plain, Plain c) ∧
      Ends terminator rest := by
  obtain ⟨plain, hbody⟩ : ∃ plain, plain = body text := ⟨_, rfl⟩
  obtain ⟨after, hafter⟩ : ∃ after, after = text.dropWhile fun c => c ≠ 10 ∧ c ≠ 13 := ⟨_, rfl⟩
  have hcut : text = plain ++ after := by
    rw [hbody, hafter]
    exact List.takeWhile_append_dropWhile.symm
  have hplain : ∀ c ∈ plain, Plain c := by
    intro c hc
    refine ⟨fun hzero => hnul ?_, ?_⟩
    · rw [hcut, ← hzero]
      exact List.mem_append_left after hc
    · rw [hbody] at hc
      have hpass := List.all_eq_true.mp List.all_takeWhile c hc
      exact of_decide_eq_true hpass
  cases hcase : after with
  | nil => exact ⟨plain, [], [], by rw [hcut, hcase]; rfl, hplain, Or.inr (Or.inr ⟨rfl, rfl⟩)⟩
  | cons c more =>
    have hmark : c = 10 ∨ c = 13 := by
      have hnot := List.head?_dropWhile_not (fun c : UInt8 => decide (c ≠ 10 ∧ c ≠ 13)) text
      rw [← hafter, hcase, List.head?_cons] at hnot
      have hnot : ¬(c ≠ 10 ∧ c ≠ 13) := of_decide_eq_false hnot
      by_contra hneither
      exact hnot (not_or.mp hneither)
    rcases hmark with rfl | rfl
    · exact ⟨plain, [10], more, by rw [hcut, hcase]; rfl, hplain, Or.inl rfl⟩
    · have hnext := hpaired plain.length (by rw [hcut, hcase]; simp)
      rw [hcut, hcase, List.getElem?_append_right (by omega),
        show plain.length + 1 - plain.length = 0 + 1 by omega, List.getElem?_cons_succ] at hnext
      obtain ⟨rest, rfl⟩ := List.head?_eq_some_iff.mp (List.head?_eq_getElem?.trans hnext)
      exact ⟨plain, [13, 10], rest, by rw [hcut, hcase]; rfl, hplain, Or.inr (Or.inl rfl)⟩

/-- A line that does not end with the text ends with a line feed. -/
theorem Ends.mark {plain terminator rest : List UInt8} (hends : Ends terminator rest)
    (hplain : ∀ c ∈ plain, Plain c) :
    terminator = [] ∧ rest = [] ∨
      ∃ line, plain ++ terminator = line ++ [10] ∧ plain ++ (terminator ++ rest) = line ++ 10 :: rest ∧
        10 ∉ line := by
  have hnot := Plain.notMem hplain
  rcases hends with rfl | rfl | hlast
  · exact Or.inr ⟨plain, rfl, rfl, hnot⟩
  · refine Or.inr ⟨plain ++ [13], by simp, by simp, ?_⟩
    rw [List.mem_append]
    exact not_or.mpr ⟨hnot, by decide⟩
  · exact Or.inl hlast

/-- The first line of a text, the others, and that it is among them. -/
theorem lines_cut {plain terminator rest : List UInt8} (hplain : ∀ c ∈ plain, Plain c)
    (hends : Ends terminator rest) :
    (lines (plain ++ (terminator ++ rest))).headD [] = plain ++ terminator ∧
      (lines (plain ++ (terminator ++ rest))).tail = lines rest ∧
      (plain ++ terminator ≠ [] → plain ++ terminator ∈ lines (plain ++ (terminator ++ rest))) := by
  rcases hends.mark hplain with ⟨rfl, rfl⟩ | ⟨line, hline, hwhole, hnot⟩
  · rw [List.append_nil, List.append_nil]
    exact lines_last (Plain.notMem hplain)
  · rw [hline, hwhole, lines_append hnot]
    exact ⟨rfl, rfl, fun _ => List.mem_cons_self⟩

/-- An ordinary text begins with a line and goes on with an ordinary text; at the
    end both are empty. -/
theorem Ordinary.split {n : Nat} (hn : 3 ≤ n) {text : List UInt8} (hordinary : Ordinary n text) :
    ∃ plain terminator rest, text = plain ++ (terminator ++ rest) ∧ (∀ c ∈ plain, Plain c) ∧
      Ends terminator rest ∧ plain.length + 3 ≤ n ∧ (lines text).headD [] = plain ++ terminator ∧
      (lines text).tail = lines rest ∧ Ordinary n rest := by
  obtain ⟨plain, terminator, rest, rfl, hplain, hends⟩ := exists_cut hordinary.no_nul hordinary.paired
  obtain ⟨hfirst, hothers, hmem⟩ := lines_cut hplain hends
  refine ⟨plain, terminator, rest, rfl, hplain, hends, ?_, hfirst, hothers, ?_⟩
  · by_cases hempty : plain ++ terminator = []
    · rw [(List.append_eq_nil_iff.mp hempty).1]
      exact hn
    · have hshort := hordinary.short (plain ++ terminator) (hmem hempty)
      rwa [body_append hplain hends] at hshort
  · rcases hends.mark hplain with ⟨_, rfl⟩ | ⟨line, _, hwhole, hnot⟩
    · exact ⟨by simp, by simp, nofun⟩
    · rw [hwhole] at hordinary
      exact hordinary.after hnot

/-! ## What the line reader has before it -/

/-- Bytes that are read one way leave the byte held back. -/
theorem ccache_steady (c : UInt8) : Steady fun h k => h = k ∧ h.ccache = c :=
  steady_of_keeps (fun _ _ hc _ => hc) (fun _ _ hc _ => hc) fun _ _ _ hc _ => hc

theorem mread_ccache {h h' : MFile} {len rc : Int} {bytes : List UInt8} (hread : mread h len = .ok (h', rc, bytes)) :
    h'.ccache = h.ccache :=
  (ccache_steady h.ccache).keeps_mread rfl hread

theorem mgetc_ccache {h h' : MFile} {beyond c : UInt8} (hget : mgetc h beyond = .ok (h', c)) :
    h'.ccache = h.ccache :=
  (ccache_steady h.ccache).keeps_mgetc rfl hget

/-- The line reader will get `left` and then find the end. It holds nothing
    back. -/
structure Awaits (h : MFile) (left : List UInt8) : Prop where
  faces : Faces h left
  solid : Solid h.head
  alert : Alert h
  ccache : h.ccache = 10

theorem Awaits.mgetc_cons {h : MFile} {c : UInt8} {left : List UInt8} (hawaits : Awaits h (c :: left))
    (beyond : UInt8) : ∃ h', mgetc h beyond = .ok (h', c) ∧ Awaits h' left := by
  obtain ⟨h', hget, hsame, hfaces, halert, _⟩ := mgetc_faces hawaits.faces beyond
  exact ⟨h', hget, hfaces, hawaits.solid.of_same hsame, halert, (mgetc_ccache hget).trans hawaits.ccache⟩

theorem Awaits.line_char_cons {h : MFile} {c : UInt8} {left : List UInt8} (hawaits : Awaits h (c :: left))
    (beyond : UInt8) : ∃ h', line_char h beyond = .ok (h', c) ∧ Awaits h' left := by
  unfold line_char
  rw [if_pos hawaits.ccache]
  exact hawaits.mgetc_cons beyond

theorem Awaits.line_char_nil {h : MFile} (hawaits : Awaits h []) (beyond : UInt8) :
    line_char h beyond = .ok (h, 0) := by
  unfold line_char
  rw [if_pos hawaits.ccache]
  exact mgetc_faces_nil hawaits.faces hawaits.solid hawaits.alert beyond

/-! ## One line -/

/-- The line loop stores a line that fits and stops behind it. -/
theorem mread_line_loop_line (beyond : Nat → UInt8) {fuel : Nat} {h : MFile} {buf : List UInt8} {d : Nat} {n : Int}
    {plain terminator rest : List UInt8} (hawaits : Awaits h (plain ++ (terminator ++ rest)))
    (hplain : ∀ c ∈ plain, Plain c) (hends : Ends terminator rest) (hpasses : plain.length < n)
    (hfuel : plain.length < fuel) (hroom : d + plain.length + 2 ≤ buf.length) :
    ∃ h' buf', mread_line_loop beyond fuel h buf d n = .ok (h', buf', d + (plain ++ terminator).length) ∧
      buf'.length = buf.length ∧
      buf'.take (d + (plain ++ terminator).length) = buf.take d ++ (plain ++ terminator) ∧ Awaits h' rest := by
  induction plain generalizing fuel h buf d n with
  | nil =>
    obtain ⟨fuel, rfl⟩ := Nat.exists_eq_add_one_of_ne_zero (by omega : fuel ≠ 0)
    rw [List.length_nil] at hroom
    unfold mread_line_loop
    rcases hends with rfl | rfl | ⟨rfl, rfl⟩
    · obtain ⟨h₁, hchar, hawaits₁⟩ := hawaits.line_char_cons (beyond d)
      obtain ⟨buf₁, hblit, hlength, htake⟩ := blit_spec
        (by rw [List.length_singleton]; omega : d + [(10 : UInt8)].length ≤ buf.length)
      rw [hchar, ok_bind]
      dsimp only
      rw [hblit, ok_bind, if_neg (by decide), if_pos rfl]
      exact ⟨h₁, buf₁, rfl, hlength, htake, hawaits₁⟩
    · obtain ⟨h₁, hchar, hawaits₁⟩ := hawaits.line_char_cons (beyond d)
      obtain ⟨h₂, hget, hawaits₂⟩ := hawaits₁.mgetc_cons (beyond (d + 1))
      obtain ⟨buf₁, hblit₁, hlength₁, htake₁⟩ := blit_spec
        (by rw [List.length_singleton]; omega : d + [(13 : UInt8)].length ≤ buf.length)
      obtain ⟨buf₂, hblit₂, hlength₂, htake₂⟩ := blit_spec
        (by rw [List.length_singleton]; omega : d + 1 + [(10 : UInt8)].length ≤ buf₁.length)
      have hheld : { h₂ with ccache := 10 } = h₂ := by rw [← hawaits₂.ccache]
      rw [hchar, ok_bind]
      dsimp only
      rw [hblit₁, ok_bind, if_pos rfl, hget, ok_bind]
      dsimp only
      rw [if_neg (by decide), if_neg (by decide), hblit₂, ok_bind, hheld]
      refine ⟨h₂, buf₂, rfl, hlength₂.trans hlength₁, ?_, hawaits₂⟩
      rw [List.length_singleton] at htake₁
      rw [htake₁, List.append_assoc] at htake₂
      exact htake₂
    · obtain ⟨buf₁, hblit, hlength, htake⟩ := blit_spec
        (by rw [List.length_singleton]; omega : d + [(0 : UInt8)].length ≤ buf.length)
      rw [hawaits.line_char_nil, ok_bind]
      dsimp only
      rw [hblit, ok_bind, if_neg (by decide), if_neg (by decide), if_pos rfl]
      refine ⟨h, buf₁, rfl, hlength, ?_, hawaits⟩
      rw [List.append_nil, List.append_nil, List.length_nil, Nat.add_zero]
      exact take_before htake (by omega)
  | cons c plain ih =>
    obtain ⟨fuel, rfl⟩ := Nat.exists_eq_add_one_of_ne_zero (by omega : fuel ≠ 0)
    rw [List.length_cons] at hpasses hfuel hroom
    obtain ⟨hnul, hfeed, hreturn⟩ := hplain c List.mem_cons_self
    obtain ⟨h₁, hchar, hawaits₁⟩ := hawaits.line_char_cons (beyond d)
    obtain ⟨buf₁, hblit, hlength, htake⟩ := blit_spec
      (by rw [List.length_singleton]; omega : d + [c].length ≤ buf.length)
    obtain ⟨h', buf', hloop, hlength', htake', hawaits'⟩ := ih hawaits₁
      (fun c' hc' => hplain c' (List.mem_cons_of_mem c hc')) (by omega : (plain.length : Int) < n - 1)
      (by omega : plain.length < fuel) (by omega : d + 1 + plain.length + 2 ≤ buf₁.length)
    have hcount : d + 1 + (plain ++ terminator).length = d + (c :: plain ++ terminator).length := by
      rw [List.cons_append, List.length_cons]
      omega
    rw [hcount] at hloop htake'
    unfold mread_line_loop
    rw [hchar, ok_bind]
    dsimp only
    rw [hblit, ok_bind, if_neg hreturn, if_neg hfeed, if_neg hnul, if_pos (by omega)]
    refine ⟨h', buf', hloop, hlength'.trans hlength, ?_, hawaits'⟩
    rw [List.length_singleton] at htake
    rw [htake', htake, List.append_assoc]
    rfl

/-- A call returns the line that comes next, and nothing at the end. -/
theorem mread_line_line {h : MFile} {buf : List UInt8} {n : Nat} {plain terminator rest : List UInt8}
    (hawaits : Awaits h (plain ++ (terminator ++ rest))) (hplain : ∀ c ∈ plain, Plain c)
    (hends : Ends terminator rest) (hbuf : buf.length = n) (hshort : plain.length + 3 ≤ n) (beyond : Nat → UInt8) :
    ∃ h' buf', mread_line h buf n beyond = .ok (h', buf', (plain ++ terminator).length) ∧ buf'.length = n ∧
      buf'.take (plain ++ terminator).length = plain ++ terminator ∧ Awaits h' rest := by
  have hlast : ((n : Int) - 1).toNat = n - 1 := by omega
  obtain ⟨buf₁, hblit, hlength, _⟩ := blit_spec
    (by rw [List.length_singleton]; omega : n - 1 + [(0 : UInt8)].length ≤ buf.length)
  obtain ⟨h', buf', hloop, hlength', htake, hawaits'⟩ := mread_line_loop_line beyond hawaits hplain
    hends (by omega : (plain.length : Int) < n - 2) (by omega : plain.length < n)
    (by omega : 0 + plain.length + 2 ≤ buf₁.length)
  rw [Nat.zero_add] at hloop htake
  refine ⟨h', buf', ?_, (hlength'.trans hlength).trans hbuf, htake, hawaits'⟩
  unfold mread_line
  rw [if_neg (by omega), hlast, hblit, ok_bind, if_pos (by omega), Int.toNat_natCast]
  exact hloop

/-! ## Handles that were only written -/

theorem new_block_ccache (alloc : Alloc) (h : MFile) : (new_block alloc h).1.ccache = h.ccache := by
  unfold new_block
  split
  · rfl
  · split
    · rfl
    · rfl

theorem write_block_ccache (alloc : Alloc) (h : MFile) : (write_block alloc h).1.ccache = h.ccache := by
  have hkept := new_block_ccache alloc h
  unfold write_block
  split
  · cases hnew : new_block alloc h with
    | mk h₁ found =>
      rw [hnew] at hkept
      cases found with
      | none => exact hkept
      | some block => exact hkept
  · rfl

theorem append_bytes_ccache {h h' : MFile} {data : List UInt8} {writed count : Nat}
    (happend : append_bytes h data writed count = .ok h') : h'.ccache = h.ccache := by
  obtain ⟨block, _, happend⟩ := bind_eq_ok_iff.mp happend
  obtain ⟨bytes, _, happend⟩ := bind_eq_ok_iff.mp happend
  obtain ⟨buffer, _, happend⟩ := bind_eq_ok_iff.mp happend
  cases happend
  rfl

theorem mwrite_loop_ccache {alloc : Alloc} {fuel : Nat} {h h' : MFile} {data : List UInt8} {len : Int}
    {writed : Nat} {rc : Int} (hwrite : mwrite_loop alloc fuel h data len writed = .ok (h', rc)) :
    h'.ccache = h.ccache := by
  induction fuel generalizing h writed with
  | zero =>
    unfold mwrite_loop at hwrite
    split at hwrite
    · cases hwrite
    · cases hwrite
      rfl
  | succ fuel ih =>
    unfold mwrite_loop at hwrite
    split at hwrite
    · have hkept := write_block_ccache alloc h
      cases hblock : write_block alloc h with
      | mk h₁ found =>
        rw [hblock] at hwrite hkept
        cases found with
        | false =>
          cases hwrite
          exact hkept
        | true =>
          obtain ⟨block, _, hwrite⟩ := bind_eq_ok_iff.mp hwrite
          dsimp only at hwrite
          split at hwrite
          · obtain ⟨h₂, happend, hwrite⟩ := bind_eq_ok_iff.mp hwrite
            cases hwrite
            exact (append_bytes_ccache happend).trans hkept
          · obtain ⟨h₂, happend, hwrite⟩ := bind_eq_ok_iff.mp hwrite
            have hrest := ih hwrite
            exact hrest.trans ((append_bytes_ccache happend).trans hkept)
    · cases hwrite
      rfl

/-- Nothing was read of the handle, and no block is empty. -/
structure Fresh (h : MFile) : Prop where
  sound : Sound h
  solid : Solid h.head
  unread : ∀ x ∈ h.head, x.2.current_read_count = 0
  reader : h.current_read_p = none
  is_empty : h.is_empty = false
  ccache : h.ccache = 10

theorem Fresh.awaits {h : MFile} (hfresh : Fresh h) : Awaits h (content h) := by
  refine ⟨⟨hfresh.sound, fun _ => ⟨hfresh.is_empty, hfresh.unread, ?_⟩, ?_⟩, hfresh.solid, ?_, hfresh.ccache⟩
  · exact (ahead_eq_contents hfresh.solid hfresh.unread).symm
  · rw [hfresh.reader]
    exact nofun
  · unfold Alert
    rw [hfresh.reader]
    exact nofun

/-- A write or a rewind. -/
def Call.Fills : Call → Prop
  | .op (.mwrite _ _) => True
  | .op (.mwrite_head _ _) => True
  | .op .mseek => True
  | .op (.mread _) => False
  | .op (.mgetc _) => False
  | .op (.mseek_pos _) => False
  | .mread_line _ _ _ => False

theorem mwrite_fresh {alloc : Alloc} {h h' : MFile} {data : List UInt8} {len rc : Int} (hfresh : Fresh h)
    (hsize : 0 < h.DATA_BLOCK_SIZE) (hdata : len ≤ data.length)
    (hwrite : mwrite alloc h data len = .ok (h', rc)) : Fresh h' := by
  obtain ⟨h₁, rc₁, count, hwrite₁, hwrote, hchunks⟩ := mwrite_wrote alloc hfresh.sound hsize hdata
  obtain ⟨rfl, rfl⟩ := ok_inj hwrite₁ hwrite
  have hkept := mwrite_loop_ccache hwrite
  exact ⟨hwrote.sound, hwrote.solid hfresh.solid, hchunks.unread hfresh.unread,
    hwrote.untouched.current_read_p.trans hfresh.reader, hwrote.untouched.is_empty.trans hfresh.is_empty,
    hkept.trans hfresh.ccache⟩

theorem mwrite_head_fresh {alloc : Alloc} {h h' : MFile} {data : List UInt8} {len rc : Int} (hfresh : Fresh h)
    (hpos : 1 ≤ len) (hsound : Sound h') (hwrite : mwrite_head alloc h data len = .ok (h', rc)) : Fresh h' := by
  obtain ⟨⟨hreader, hflag, hccache, _⟩, hblocks⟩ := mwrite_head_cases hwrite
  have hreader' := hreader.trans hfresh.reader
  have hflag' := hflag.trans hfresh.is_empty
  have hccache' := hccache.trans hfresh.ccache
  rcases hblocks with hhead | ⟨block, hhead, hcount, hread⟩
  · exact ⟨hsound, hhead ▸ hfresh.solid, hhead ▸ hfresh.unread, hreader', hflag', hccache'⟩
  · refine ⟨hsound, ?_, ?_, hreader', hflag', hccache'⟩
    · rw [hhead]
      exact List.forall_mem_cons.mpr ⟨by dsimp only; omega, hfresh.solid⟩
    · rw [hhead]
      exact List.forall_mem_cons.mpr ⟨hread, hfresh.unread⟩

theorem mseek_fresh {h : MFile} (hfresh : Fresh h) : Fresh (mseek h) := by
  obtain ⟨hsame, hsound⟩ := mseek_same hfresh.sound
  refine ⟨hsound, hfresh.solid.of_same hsame, fun x hx => ?_, rfl, rfl, hfresh.ccache⟩
  obtain ⟨y, _, rfl⟩ := List.mem_map.mp hx
  rfl

theorem fresh_along_run {alloc : Alloc} {size : Nat} (hsize : 1 ≤ size) {af fe : Bool} {h h' : MFile}
    (hopen : mopen alloc size af fe = .ok (some h)) {calls : List Call} {replies : List Reply}
    (hfills : ∀ call ∈ calls, call.Fills) (hcovered : ∀ call ∈ calls, call.Covered)
    (hnonempty : ∀ call ∈ calls, call.Nonempty) (hrun : run (perform alloc) h calls = .ok (h', replies)) :
    Fresh h' := by
  have hholds := holds_of_open hsize hopen
  have hstart : Fresh h := by
    rw [eq_new_handle_of_mopen hopen]
    refine ⟨?_, nofun, nofun, rfl, rfl, rfl⟩
    rw [← eq_new_handle_of_mopen hopen]
    exact hholds.layout.sound
  have hkeeps := run_keeps_of_mem (C := fun call => call.Fills ∧ call.Covered ∧ call.Nonempty)
    (fun h => Fresh h ∧ h.DATA_BLOCK_SIZE = size) ?_ ⟨hstart, hholds.block_size⟩
    (fun call hcall => ⟨hfills call hcall, hcovered call hcall, hnonempty call hcall⟩) hrun
  · exact hkeeps.1
  rintro h call h' reply ⟨hfresh, hblock⟩ ⟨hfill, hcover, hpos⟩ hperform
  obtain ⟨hsound', hblock'⟩ := perform_sound hfresh.sound (by omega) hcover hperform
  refine ⟨?_, hblock'.trans hblock⟩
  cases call with
  | mread_line buf n beyond => exact hfill.elim
  | op op =>
    cases op with
    | mwrite data len =>
      obtain ⟨rc, hwrite⟩ := perform_mwrite hperform
      exact mwrite_fresh hfresh (by omega) hcover hwrite
    | mwrite_head data len =>
      obtain ⟨rc, hwrite⟩ := perform_mwrite_head hperform
      exact mwrite_head_fresh hfresh hpos hsound' hwrite
    | mseek =>
      cases hperform
      exact mseek_fresh hfresh
    | mread len => exact hfill.elim
    | mgetc beyond => exact hfill.elim
    | mseek_pos pos => exact hfill.elim

/-! ## All lines -/

/-- A reply that returns the line in a buffer of `n` bytes. -/
def Reply.Returns (n : Nat) (line : List UInt8) (reply : Reply) : Prop :=
  ∃ buf, reply = .line line.length buf ∧ buf.length = n ∧ buf.take line.length = line

/-- Successive calls return successive lines, and nothing once there are no
    more. -/
theorem run_lines (alloc : Alloc) {n : Nat} (hn : 3 ≤ n) {reads : List (List UInt8 × (Nat → UInt8))} {h : MFile}
    {text : List UInt8} (hawaits : Awaits h text) (hordinary : Ordinary n text)
    (hbufs : ∀ x ∈ reads, x.1.length = n) :
    ∃ h' replies, run (perform alloc) h (reads.map fun x => .mread_line x.1 n x.2) = .ok (h', replies) ∧
      replies.length = reads.length ∧
      ∀ (k : Nat) reply, replies[k]? = some reply → reply.Returns n ((lines text).getD k []) := by
  induction reads generalizing h text with
  | nil => exact ⟨h, [], rfl, rfl, by simp⟩
  | cons x reads ih =>
    obtain ⟨plain, terminator, rest, htext, hplain, hends, hshort, hfirst, hothers, hordinary'⟩ :=
      hordinary.split hn
    rw [htext] at hawaits
    obtain ⟨h₁, buf, hline, hlength, htake, hawaits₁⟩ :=
      mread_line_line hawaits hplain hends (hbufs x List.mem_cons_self) hshort x.2
    obtain ⟨h', replies, hrun, hcount, hreplies⟩ :=
      ih hawaits₁ hordinary' fun y hy => hbufs y (List.mem_cons_of_mem x hy)
    have hperform : perform alloc h (.mread_line x.1 n x.2) =
        .ok (h₁, .line (plain ++ terminator).length buf) := by
      simp only [perform, hline, ok_bind]
    refine ⟨h', _, run_cons_eq_ok_iff.mpr ⟨h₁, _, replies, hperform, hrun, rfl⟩, by simp [hcount], ?_⟩
    intro k reply hreply
    cases k with
    | zero =>
      obtain rfl := Option.some.inj hreply
      have hzero : (lines text).getD 0 [] = plain ++ terminator := by
        rw [← hfirst]
        cases lines text with
        | nil => rfl
        | cons line _ => rfl
      rw [hzero]
      exact ⟨buf, rfl, hlength, htake⟩
    | succ k =>
      have hnext : (lines text).getD (k + 1) [] = (lines rest).getD k [] := by
        rw [← hothers]
        cases lines text with
        | nil => rfl
        | cons line _ => rfl
      rw [hnext]
      exact hreplies k reply hreply

/-- On a handle that was written and not read, `mread_line` returns the lines of
    an ordinary text one after the other, and 0 after the last. It stays inside a
    buffer of `n` bytes. -/
theorem mread_line_splits {alloc : Alloc} {size : Nat} (hsize : 1 ≤ size) {af fe : Bool} {h h' : MFile}
    (hopen : mopen alloc size af fe = .ok (some h)) {calls : List Call} {replies : List Reply}
    (hfills : ∀ call ∈ calls, call.Fills) (hcovered : ∀ call ∈ calls, call.Covered)
    (hnonempty : ∀ call ∈ calls, call.Nonempty) (hrun : run (perform alloc) h calls = .ok (h', replies))
    {n : Nat} (hn : 3 ≤ n) (hordinary : Ordinary n (content h'))
    {reads : List (List UInt8 × (Nat → UInt8))} (hbufs : ∀ x ∈ reads, x.1.length = n) :
    ∃ h'' replies', run (perform alloc) h' (reads.map fun x => .mread_line x.1 n x.2) = .ok (h'', replies') ∧
      replies'.length = reads.length ∧
      ∀ (k : Nat) reply, replies'[k]? = some reply → reply.Returns n ((lines (content h')).getD k []) :=
  run_lines alloc hn (fresh_along_run hsize hopen hfills hcovered hnonempty hrun).awaits hordinary hbufs

/-- In blocks of two bytes the line feed is not in the block of its carriage
    return. -/
theorem mread_line_splits_straddling :
    ∃ h' replies h'' replies', run (perform fun _ => some fun _ => 0) (new_handle 2 true)
        [.op (.mwrite [97, 13, 10, 98] 4)] = .ok (h', replies) ∧
      run (perform fun _ => some fun _ => 0) h' (List.replicate 3 (.mread_line [1, 1, 1, 1] 4 fun _ => 0)) =
        .ok (h'', replies') ∧
      replies'.length = 3 ∧ ∀ (k : Nat) reply, replies'[k]? = some reply →
        reply.Returns 4 ([[97, 13, 10], [98]].getD k []) := by
  have hopen : mopen (fun _ => some fun _ => 0) 2 true true = .ok (some (new_handle 2 true)) := rfl
  obtain ⟨h', replies, hrun, hcontent⟩ := run_of_view content
    (by decide +kernel : (run (perform fun _ => some fun _ => 0) (new_handle 2 true)
      [.op (.mwrite [97, 13, 10, 98] 4)]).toOption.map (fun r => content r.1) = some [97, 13, 10, 98])
  have hordinary : Ordinary 4 [97, 13, 10, 98] := by
    refine ⟨by decide, fun i hi => ?_, by decide⟩
    match i with
    | 0 => cases hi
    | 1 => rfl
    | 2 => cases hi
    | 3 => cases hi
    | i + 4 => cases hi
  rw [← hcontent] at hordinary
  obtain ⟨h'', replies', hreads, hcount, hreplies⟩ := mread_line_splits (by decide) hopen
    (by simp [Call.Fills]) (by decide : ∀ call ∈ _, Call.Covered call) (by decide : ∀ call ∈ _, Call.Nonempty call)
    hrun (by decide) hordinary
    (by decide : ∀ x ∈ List.replicate 3 (([1, 1, 1, 1] : List UInt8), fun _ : Nat => (0 : UInt8)), x.1.length = 4)
  rw [hcontent] at hreplies
  exact ⟨h', replies, h'', replies', hrun, hreads, hcount, hreplies⟩

end code_tools.mfile
