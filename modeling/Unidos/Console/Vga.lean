import Unidos.Lib.Memory
import Unidos.Lib.Run
import Unidos.Machine

/-!
# The text console

After `kernel/prekinit/prekinit_vga.asm`: the text buffer of the VGA, 2000 cells of a character and
an attribute each, and the cursor in the registers of the CRTC. `Terminal` is a terminal of 25 rows
and 80 columns as one would describe it; `kdbgPutsn_exact` says that writing any string of any
length leaves the buffer and the cursor as they are on that terminal, and touches no cell outside.
-/

namespace Unidos.Console

open Lib

/-! ## The driver -/

/-- The words from `vga_base` on, of which the first 2000 are the text buffer, and the cursor
registers of the CRTC. -/
structure Screen where
  cells : Nat → BitVec 16
  cursor : BitVec 16

/-- `VGA_DEFAULT_COLS`. -/
def vgaDefaultCols : BitVec 16 := 80

/-- `VGA_DEFAULT_CELLS`. -/
def vgaDefaultCells : BitVec 16 := 2000

/-- A space with the attribute `VGA_ATTR_DEFAULT`. -/
def blankCell : BitVec 16 := 0x0F20

/-- One round of `rep movsd` in `._vga_scroll`: two cells move up by a row. -/
def moveDword (cells : Nat → BitVec 16) (i : Nat) : Nat → BitVec 16 :=
  Function.update (Function.update cells (2 * i) (cells (80 + 2 * i))) (2 * i + 1)
    (cells (80 + (2 * i + 1)))

/-- `._vga_scroll`. -/
def vgaScroll (s : Screen) : Screen :=
  let cells := (List.range 960).foldl moveDword s.cells
  { s with
    cells := (List.range 80).foldl (fun cells i => Function.update cells (1920 + i) blankCell)
      cells }

/-- `.normalize_cursor_after_write`, for at most so many rounds. -/
def normalizeCursorAfterWrite : Nat → BitVec 16 → Screen → Option (BitVec 16 × Screen)
  | 0, _, _ => none
  | fuel + 1, ax, s =>
      if ax < vgaDefaultCells then some (ax, s)
      else normalizeCursorAfterWrite fuel (ax - vgaDefaultCols) (vgaScroll s)

/-- The end of most branches of `.putch`: scroll if need be and set the cursor. A round takes 80 off
a 16-bit number. -/
def normalizeAndSet (s : Screen) (ax : BitVec 16) : Except Trap Screen :=
  match normalizeCursorAfterWrite 1000 ax s with
  | some (ax, s) => .ok { s with cursor := ax }
  | none => .error .diverge

/-- `.putch`. -/
def putch (s : Screen) (al ah : Byte) : Except Trap Screen :=
  let ax := s.cursor
  let row := ax / vgaDefaultCols
  let col := ax % vgaDefaultCols
  if al = 0x0A then normalizeAndSet s ((row + 1) * vgaDefaultCols)
  else if al = 0x0D then normalizeAndSet s (row * vgaDefaultCols)
  else if al = 0x09 then
    let cx := (col + 4) &&& 0xFFFC
    if cx < vgaDefaultCols then normalizeAndSet s (row * vgaDefaultCols + cx)
    else normalizeAndSet s ((row + 1) * vgaDefaultCols + 0)
  else if al = 0x08 then
    if ax = 0 then .ok s else normalizeAndSet s (ax - 1)
  else
    normalizeAndSet { s with cells := Function.update s.cells ax.toNat (ah ++ al) } (ax + 1)

/-- The loop of `.putsn` with `ecx` bytes to go, at index `i` of the string. -/
def putsnFrom (str : Nat → Byte) (dl : Byte) : Nat → Nat → Screen → Except Trap Screen
  | 0, _, s => .ok s
  | ecx + 1, i, s =>
      if str i = 0 then .ok s
      else do
        let s ← putch s (str i) dl
        putsnFrom str dl ecx (i + 1) s

/-- `kdbg_putsn`; a null pointer prints nothing. -/
def kdbgPutsn (str : Option (Nat → Byte)) (attr len : BitVec 32) (s : Screen) :
    Except Trap Screen :=
  match str with
  | none => .ok s
  | some str => putsnFrom str (attr.setWidth 8) len.toNat 0 s

/-! ## The terminal -/

/-- A terminal of 25 rows and 80 columns. -/
structure Terminal where
  cell : Fin 25 → Fin 80 → BitVec 16
  row : Fin 25
  col : Fin 80

namespace Terminal

/-- All rows move up by one, and the last one is blank. -/
def scroll (t : Terminal) : Terminal :=
  { t with cell := fun r c => if h : r.val + 1 < 25 then t.cell ⟨r.val + 1, h⟩ c else blankCell }

/-- The start of the next row. -/
def newline (t : Terminal) : Terminal :=
  if h : t.row.val + 1 < 25 then { t with row := ⟨t.row.val + 1, h⟩, col := 0 }
  else { t.scroll with row := 24, col := 0 }

/-- The start of the row. -/
def carriageReturn (t : Terminal) : Terminal := { t with col := 0 }

/-- The next column that is a multiple of 4, or the start of the next row. -/
def tab (t : Terminal) : Terminal :=
  if h : 4 * (t.col.val / 4 + 1) < 80 then { t with col := ⟨4 * (t.col.val / 4 + 1), h⟩ }
  else t.newline

/-- One cell to the left, but not from the first. -/
def backspace (t : Terminal) : Terminal :=
  if 0 < t.col.val then { t with col := ⟨t.col.val - 1, by omega⟩ }
  else if 0 < t.row.val then { t with row := ⟨t.row.val - 1, by omega⟩, col := 79 }
  else t

/-- Put a cell and advance. -/
def put (t : Terminal) (w : BitVec 16) : Terminal :=
  let t := { t with cell := fun r c => if r = t.row ∧ c = t.col then w else t.cell r c }
  if h : t.col.val + 1 < 80 then { t with col := ⟨t.col.val + 1, h⟩ } else t.newline

/-- The terminal receives a byte. -/
def feed (attr : Byte) (t : Terminal) (b : Byte) : Terminal :=
  if b = 0x0A then t.newline
  else if b = 0x0D then t.carriageReturn
  else if b = 0x09 then t.tab
  else if b = 0x08 then t.backspace
  else t.put (attr ++ b)

end Terminal

/-- What a screen shows while its cursor is on it. -/
def Screen.terminal (s : Screen) (h : s.cursor.toNat < 2000) : Terminal where
  cell r c := s.cells (80 * r.val + c.val)
  row := ⟨s.cursor.toNat / 80, by omega⟩
  col := ⟨s.cursor.toNat % 80, by omega⟩

/-- The bytes that are printed: up to the length or the first NUL. -/
def printed (str : Nat → Byte) (len : Nat) : List Byte :=
  ((List.range len).map str).takeWhile (· ≠ 0)

/-! ## The driver shows the terminal -/

/-- The screen shows the terminal. -/
structure Shows (s : Screen) (t : Terminal) : Prop where
  cursor : s.cursor.toNat = 80 * t.row.val + t.col.val
  cells : ∀ (r : Fin 25) (c : Fin 80), s.cells (80 * r.val + c.val) = t.cell r c

/-- Nothing outside the text buffer differs. -/
def SameOutside (s u : Screen) : Prop := ∀ k, 2000 ≤ k → u.cells k = s.cells k

section Scroll

/-- After `n` double words the first `2 * n` cells have moved. -/
theorem foldl_moveDword (cells : Nat → BitVec 16) (n k : Nat) :
    (List.range n).foldl moveDword cells k = if k < 2 * n then cells (80 + k) else cells k := by
  induction n generalizing k with
  | zero => rfl
  | succ n ih =>
      rw [List.range_succ, List.foldl_append, List.foldl_cons, List.foldl_nil, moveDword]
      by_cases h1 : k = 2 * n + 1
      · rw [h1, Function.update_self, ih, if_neg (by omega), if_pos (by omega)]
      · rw [Function.update_of_ne h1]
        by_cases h2 : k = 2 * n
        · rw [h2, Function.update_self, ih, if_neg (by omega), if_pos (by omega)]
        · rw [Function.update_of_ne h2, ih]
          by_cases h3 : k < 2 * n
          · rw [if_pos h3, if_pos (by omega)]
          · rw [if_neg h3, if_neg (by omega)]

theorem foldl_blank (cells : Nat → BitVec 16) (n k : Nat) :
    (List.range n).foldl (fun cells i => Function.update cells (1920 + i) blankCell) cells k =
      if 1920 ≤ k ∧ k < 1920 + n then blankCell else cells k := by
  induction n generalizing k with
  | zero => exact (if_neg (by omega)).symm
  | succ n ih =>
      rw [List.range_succ, List.foldl_append, List.foldl_cons, List.foldl_nil]
      by_cases h : k = 1920 + n
      · rw [h, Function.update_self, if_pos (by omega)]
      · rw [Function.update_of_ne h, ih]
        by_cases h' : 1920 ≤ k ∧ k < 1920 + n
        · rw [if_pos h', if_pos (by omega)]
        · rw [if_neg h', if_neg (by omega)]

/-- A scroll, cell by cell. -/
theorem cells_vgaScroll (s : Screen) (k : Nat) : (vgaScroll s).cells k =
    if k < 1920 then s.cells (80 + k) else if k < 2000 then blankCell else s.cells k := by
  rw [vgaScroll]
  dsimp only
  rw [foldl_blank, foldl_moveDword]
  by_cases h1 : k < 1920
  · rw [if_neg (by omega), if_pos (by omega), if_pos h1]
  · by_cases h2 : k < 2000
    · rw [if_pos (by omega), if_neg h1, if_pos h2]
    · rw [if_neg (by omega), if_neg (by omega), if_neg h1, if_neg h2]

end Scroll

/-! ### The cursor -/

theorem normalizeAndSet_below (s : Screen) {ax : BitVec 16} (h : ax.toNat < 2000) :
    normalizeAndSet s ax = .ok { s with cursor := ax } := by
  have hlt : ax < vgaDefaultCells := BitVec.lt_def.mpr h
  rw [normalizeAndSet, normalizeCursorAfterWrite, if_pos hlt]

/-- Past the last cell by one, the buffer scrolls once. -/
theorem normalizeAndSet_end (s : Screen) {ax : BitVec 16} (h : ax.toNat = 2000) :
    normalizeAndSet s ax = .ok { vgaScroll s with cursor := 1920 } := by
  obtain rfl : ax = 2000 := BitVec.eq_of_toNat_eq h
  rfl

theorem SameOutside.refl (s : Screen) : SameOutside s s := fun _ _ => rfl

theorem SameOutside.trans {s u v : Screen} (h₁ : SameOutside s u) (h₂ : SameOutside u v) :
    SameOutside s v := fun k hk => (h₂ k hk).trans (h₁ k hk)

theorem sameOutside_vgaScroll (s : Screen) : SameOutside s (vgaScroll s) := by
  intro k hk
  rw [cells_vgaScroll, if_neg (by omega), if_neg (by omega)]

/-- The driver reaches a screen that shows the terminal, within the text buffer. -/
def Reaches (s : Screen) (x : Except Trap Screen) (t : Terminal) : Prop :=
  ∃ u, x = .ok u ∧ Shows u t ∧ SameOutside s u

section Branches

variable {s : Screen} {t : Terminal}

theorem Shows.lt (h : Shows s t) : s.cursor.toNat < 2000 := by
  have := h.cursor
  have := t.row.isLt
  have := t.col.isLt
  omega

theorem Shows.toNat_row (h : Shows s t) : (s.cursor / vgaDefaultCols).toNat = t.row.val := by
  have hcol := t.col.isLt
  rw [BitVec.toNat_udiv, h.cursor]
  show (80 * t.row.val + t.col.val) / 80 = t.row.val
  omega

theorem Shows.toNat_col (h : Shows s t) : (s.cursor % vgaDefaultCols).toNat = t.col.val := by
  have hcol := t.col.isLt
  rw [BitVec.toNat_umod, h.cursor]
  show (80 * t.row.val + t.col.val) % 80 = t.col.val
  omega

/-- Moving the cursor to a place of the screen. -/
theorem reaches_move {cell : Fin 25 → Fin 80 → BitVec 16}
    (hcells : ∀ (r : Fin 25) (c : Fin 80), s.cells (80 * r.val + c.val) = cell r c)
    (row : Fin 25) (col : Fin 80) {ax : BitVec 16} (hax : ax.toNat = 80 * row.val + col.val) :
    Reaches s (normalizeAndSet s ax) ⟨cell, row, col⟩ := by
  have hrow := row.isLt
  have hcol := col.isLt
  exact ⟨_, normalizeAndSet_below s (by omega), ⟨hax, hcells⟩, SameOutside.refl s⟩

/-- Moving the cursor to the start of the next row. -/
theorem reaches_newline
    (hcells : ∀ (r : Fin 25) (c : Fin 80), s.cells (80 * r.val + c.val) = t.cell r c)
    {ax : BitVec 16} (hax : ax.toNat = 80 * (t.row.val + 1)) :
    Reaches s (normalizeAndSet s ax) t.newline := by
  rw [Terminal.newline]
  by_cases hrow : t.row.val + 1 < 25
  · rw [dif_pos hrow]
    exact reaches_move hcells _ 0 hax
  · rw [dif_neg hrow]
    have hlast : t.row.val = 24 := by omega
    refine ⟨_, normalizeAndSet_end s (by omega), ⟨rfl, ?_⟩, sameOutside_vgaScroll s⟩
    intro r c
    show (vgaScroll s).cells (80 * r.val + c.val) = t.scroll.cell r c
    have hc := c.isLt
    rw [cells_vgaScroll, Terminal.scroll]
    by_cases hr : r.val + 1 < 25
    · rw [if_pos (by omega)]
      dsimp only
      rw [dif_pos hr, ← hcells ⟨r.val + 1, hr⟩ c]
      exact congrArg s.cells (by dsimp only; omega)
    · rw [if_neg (by omega), if_pos (by omega)]
      dsimp only
      rw [dif_neg hr]

theorem toNat_nextRow {row : BitVec 16} (h : row.toNat = t.row.val) :
    ((row + 1) * vgaDefaultCols).toNat = 80 * (t.row.val + 1) := by
  have hrow := t.row.isLt
  rw [BitVec.toNat_mul, BitVec.toNat_add, h]
  show (t.row.val + 1) % 65536 * 80 % 65536 = _
  omega

theorem toNat_thisRow {row : BitVec 16} (h : row.toNat = t.row.val) :
    (row * vgaDefaultCols).toNat = 80 * t.row.val := by
  have hrow := t.row.isLt
  rw [BitVec.toNat_mul, h]
  show t.row.val * 80 % 65536 = _
  omega

/-- The rounding of a tab, on every column. -/
theorem toNat_tabStop {col : BitVec 16} (h : col.toNat < 80) :
    ((col + 4) &&& 0xFFFC).toNat = 4 * (col.toNat / 4 + 1) := by
  have hall : ∀ n < 80, ((BitVec.ofNat 16 n + 4) &&& 0xFFFC).toNat = 4 * (n / 4 + 1) := by decide
  have hcol := hall col.toNat h
  rwa [BitVec.ofNat_toNat, BitVec.setWidth_eq] at hcol

theorem reaches_tab (h : Shows s t) :
    Reaches s
      (if (s.cursor % vgaDefaultCols + 4) &&& 0xFFFC < vgaDefaultCols then
        normalizeAndSet s (s.cursor / vgaDefaultCols * vgaDefaultCols +
          ((s.cursor % vgaDefaultCols + 4) &&& 0xFFFC))
      else normalizeAndSet s ((s.cursor / vgaDefaultCols + 1) * vgaDefaultCols + 0)) t.tab := by
  have hrow := t.row.isLt
  have hcol := t.col.isLt
  have hstop := toNat_tabStop (h.toNat_col ▸ hcol)
  rw [h.toNat_col] at hstop
  rw [Terminal.tab]
  by_cases hfit : 4 * (t.col.val / 4 + 1) < 80
  · have hlt : (s.cursor % vgaDefaultCols + 4) &&& 0xFFFC < vgaDefaultCols :=
      BitVec.lt_def.mpr (hstop ▸ hfit)
    rw [if_pos hlt, dif_pos hfit]
    refine reaches_move h.cells _ _ ?_
    rw [BitVec.toNat_add, toNat_thisRow h.toNat_row, hstop]
    dsimp only
    omega
  · have hlt : ¬ (s.cursor % vgaDefaultCols + 4) &&& 0xFFFC < vgaDefaultCols :=
      fun hlt => hfit (hstop ▸ BitVec.lt_def.mp hlt)
    rw [if_neg hlt, dif_neg hfit]
    refine reaches_newline h.cells ?_
    rw [BitVec.toNat_add, toNat_nextRow h.toNat_row]
    show (80 * (t.row.val + 1) + 0) % 65536 = _
    omega

theorem reaches_backspace (h : Shows s t) :
    Reaches s (if s.cursor = 0 then .ok s else normalizeAndSet s (s.cursor - 1)) t.backspace := by
  have hcur := h.cursor
  have hrow := t.row.isLt
  have hcol := t.col.isLt
  by_cases hzero : s.cursor = 0
  · rw [if_pos hzero]
    have hz : s.cursor.toNat = 0 := congrArg BitVec.toNat hzero
    rw [Terminal.backspace, if_neg (by omega), if_neg (by omega)]
    exact ⟨s, rfl, h, SameOutside.refl s⟩
  · rw [if_neg hzero]
    have hpos : s.cursor.toNat ≠ 0 := fun hz => hzero (BitVec.eq_of_toNat_eq hz)
    have hdec : (s.cursor - 1).toNat = s.cursor.toNat - 1 := by
      have hlt := s.cursor.isLt
      rw [BitVec.toNat_sub]
      show (65536 - 1 + s.cursor.toNat) % 65536 = _
      omega
    rw [Terminal.backspace]
    by_cases hc : 0 < t.col.val
    · rw [if_pos hc]
      exact reaches_move h.cells _ _ (by dsimp only; omega)
    · rw [if_neg hc, if_pos (by omega)]
      refine reaches_move h.cells _ _ ?_
      show (s.cursor - 1).toNat = 80 * (t.row.val - 1) + 79
      omega

/-- The cell under the cursor is the one that is written. -/
theorem Shows.put_cells (h : Shows s t) (w : BitVec 16) (r : Fin 25) (c : Fin 80) :
    Function.update s.cells s.cursor.toNat w (80 * r.val + c.val) =
      if r = t.row ∧ c = t.col then w else t.cell r c := by
  have hcur := h.cursor
  have hc := c.isLt
  have hcol := t.col.isLt
  by_cases hat : r = t.row ∧ c = t.col
  · rw [if_pos hat, hcur, hat.1, hat.2, Function.update_self]
  · rw [if_neg hat, Function.update_of_ne, h.cells]
    intro heq
    exact hat ⟨Fin.ext (by omega), Fin.ext (by omega)⟩

theorem reaches_put (h : Shows s t) (w : BitVec 16) :
    Reaches s
      (normalizeAndSet { s with cells := Function.update s.cells s.cursor.toNat w } (s.cursor + 1))
      (t.put w) := by
  have hcur := h.cursor
  have hlt := h.lt
  have hinc : (s.cursor + 1).toNat = s.cursor.toNat + 1 := by
    rw [BitVec.toNat_add]
    show (s.cursor.toNat + 1) % 65536 = _
    omega
  have hout : SameOutside s { s with cells := Function.update s.cells s.cursor.toNat w } := by
    intro k hk
    exact Function.update_of_ne (by omega) _ _
  have hreach : Reaches { s with cells := Function.update s.cells s.cursor.toNat w }
      (normalizeAndSet { s with cells := Function.update s.cells s.cursor.toNat w }
        (s.cursor + 1)) (t.put w) := by
    rw [Terminal.put]
    dsimp only
    by_cases hc : t.col.val + 1 < 80
    · rw [dif_pos hc]
      exact reaches_move (h.put_cells w) _ _ (by dsimp only; omega)
    · rw [dif_neg hc]
      refine reaches_newline (h.put_cells w) ?_
      dsimp only
      omega
  obtain ⟨u, hu, hshows, hsame⟩ := hreach
  exact ⟨u, hu, hshows, hout.trans hsame⟩

/-- One byte. -/
theorem putch_reaches (h : Shows s t) (al ah : Byte) :
    Reaches s (putch s al ah) (t.feed ah al) := by
  rw [putch, Terminal.feed]
  dsimp only
  by_cases hnl : al = 0x0A
  · rw [if_pos hnl, if_pos hnl]
    exact reaches_newline h.cells (toNat_nextRow h.toNat_row)
  rw [if_neg hnl, if_neg hnl]
  by_cases hcr : al = 0x0D
  · rw [if_pos hcr, if_pos hcr, Terminal.carriageReturn]
    exact reaches_move h.cells _ 0 (toNat_thisRow h.toNat_row)
  rw [if_neg hcr, if_neg hcr]
  by_cases htab : al = 0x09
  · rw [if_pos htab, if_pos htab]
    exact reaches_tab h
  rw [if_neg htab, if_neg htab]
  by_cases hbs : al = 0x08
  · rw [if_pos hbs, if_pos hbs]
    exact reaches_backspace h
  rw [if_neg hbs, if_neg hbs]
  exact reaches_put h _

/-- What is left of the string after `i` bytes. -/
theorem putsnFrom_reaches (str : Nat → Byte) (dl : Byte) {n i : Nat} (h : Shows s t) :
    Reaches s (putsnFrom str dl n i s)
      ((((List.range' i n).map str).takeWhile (· ≠ 0)).foldl (Terminal.feed dl) t) := by
  induction n generalizing s t i with
  | zero => exact ⟨s, rfl, h, SameOutside.refl s⟩
  | succ n ih =>
      rw [putsnFrom, List.range'_succ, List.map_cons]
      by_cases hnul : str i = 0
      · rw [if_pos hnul, List.takeWhile_cons_of_neg (by simpa using hnul)]
        exact ⟨s, rfl, h, SameOutside.refl s⟩
      · rw [if_neg hnul, List.takeWhile_cons_of_pos (by simpa using hnul), List.foldl_cons]
        obtain ⟨u, hu, hshows, hsame⟩ := putch_reaches h (str i) dl
        obtain ⟨v, hv, hshows', hsame'⟩ := ih (i := i + 1) hshows
        rw [hu, ok_bind]
        exact ⟨v, hv, hshows', hsame.trans hsame'⟩

end Branches

theorem Screen.shows (s : Screen) (h : s.cursor.toNat < 2000) : Shows s (s.terminal h) :=
  ⟨(Nat.div_add_mod _ 80).symm, fun _ _ => rfl⟩

/-- A screen shows one terminal only. -/
theorem Shows.terminal_eq {s : Screen} {t : Terminal} (h : Shows s t) :
    s.terminal h.lt = t := by
  have hcol := t.col.isLt
  have hcur := h.cursor
  have hcell : (s.terminal h.lt).cell = t.cell := funext fun r => funext fun c => h.cells r c
  have hrow' : (s.terminal h.lt).row = t.row := Fin.ext (by
    show s.cursor.toNat / 80 = t.row.val
    omega)
  have hcol' : (s.terminal h.lt).col = t.col := Fin.ext (by
    show s.cursor.toNat % 80 = t.col.val
    omega)
  cases t
  simp only [Screen.terminal] at hcell hrow' hcol' ⊢
  rw [hcell, hrow', hcol']

/-- **Console output stays on the screen**: with the cursor on the screen, `kdbg_putsn` returns,
leaves the cursor on the screen and every word outside the text buffer as it was, and the buffer
and the cursor are those of a terminal that received the bytes up to the length or the first NUL;
with a null pointer nothing changes. -/
theorem kdbgPutsn_exact (s : Screen) (hcursor : s.cursor.toNat < 2000) (attr len : BitVec 32) :
    kdbgPutsn none attr len s = .ok s ∧
    ∀ str : Nat → Byte, ∃ u, kdbgPutsn (some str) attr len s = .ok u ∧
      (∀ k, 2000 ≤ k → u.cells k = s.cells k) ∧
      ∃ hu : u.cursor.toNat < 2000, u.terminal hu =
        (printed str len.toNat).foldl (Terminal.feed (attr.setWidth 8)) (s.terminal hcursor) := by
  refine ⟨rfl, fun str => ?_⟩
  obtain ⟨u, hu, hshows, hsame⟩ :=
    putsnFrom_reaches str (attr.setWidth 8) (n := len.toNat) (i := 0) (s.shows hcursor)
  refine ⟨u, hu, hsame, hshows.lt, ?_⟩
  rw [hshows.terminal_eq, printed, List.range_eq_range']

/-- On the last cell, a printable byte scrolls: the top row is the second, and the cursor starts
the last row. -/
def atLastCell : Screen := ⟨fun k => BitVec.ofNat 16 k, 1999⟩

theorem kdbgPutsn_exact_last :
    atLastCell.cursor.toNat < 2000 ∧
    ∃ u, kdbgPutsn (some fun _ => 0x41) 0x07 1 atLastCell = .ok u ∧
      ∃ hu : u.cursor.toNat < 2000, u.terminal hu =
        (printed (fun _ => 0x41) 1).foldl (Terminal.feed 0x07)
          (atLastCell.terminal (by decide)) := by
  obtain ⟨u, hok, -, hu, heq⟩ :=
    (kdbgPutsn_exact atLastCell (by decide) 0x07 1).2 (fun _ => 0x41)
  exact ⟨by decide, u, hok, hu, heq⟩

end Unidos.Console
