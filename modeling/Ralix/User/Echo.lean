import Mathlib.Data.List.Infix
import Ralix.Drivers.Screen
import Ralix.Kernel.Write
import Ralix.User.Shell

/-!
# The line on the screen

The shell echoes what is typed, and the screen shows the echo. What it writes goes to the console byte
by byte, as `write` of `src/kernel/vfs.rs` does (`Prompt.trace_screen`), and the console draws each byte
in the cell at the cursor (`Grid`). `InStep` says that the screen keeps up with the shell: the cursor
stands after the line, and the row shows the prompt and the line.

An erase is echoed as a backspace, a space and a backspace. The console takes none of these back. It
draws three characters, and the cursor moves on. `inStep_iff` says that the screen keeps up exactly if no
character is ever erased.
-/

namespace Ralix.User

open Lib Drivers
open Dtb (Bytes ascii)

/-- A printable ASCII character. -/
def Printable (b : UInt8) : Prop := 0x20 ≤ b ∧ b ≤ 0x7e

/-- A byte that erases a character. -/
def Erases (b : UInt8) : Prop := b = 0x08 ∨ b = 0x7f

instance (b : UInt8) : Decidable (Printable b) := inferInstanceAs (Decidable (_ ∧ _))

instance (b : UInt8) : Decidable (Erases b) := inferInstanceAs (Decidable (_ ∨ _))

/-- A printable character does not erase. -/
theorem Printable.not_erases {b : UInt8} (h : Printable b) : ¬Erases b := by
  rintro (rfl | rfl)
  · exact absurd h (by decide)
  · exact absurd h (by decide)

/-- A printable character does not end a line. -/
theorem Printable.endsLine {b : UInt8} (h : Printable b) : endsLine b = false := by
  refine Bool.eq_false_iff.mpr fun he => ?_
  rw [User.endsLine, Bool.or_eq_true, decide_eq_true_iff, decide_eq_true_iff] at he
  rcases he with rfl | rfl
  · exact absurd h (by decide)
  · exact absurd h (by decide)

/-- A byte that erases does not end a line. -/
theorem Erases.endsLine {b : UInt8} (h : Erases b) : endsLine b = false := by
  rcases h with rfl | rfl <;> rfl

/-- The characters of printable bytes. -/
def chars (bytes : List UInt8) : List Char := bytes.map Char.ofUInt8

/-- A printable character is a byte in UTF-8. -/
theorem Printable.encode {b : UInt8} (h : Printable b) :
    String.utf8EncodeChar (Char.ofUInt8 b) = [b] := by
  have hle : b.toNat ≤ 127 := (UInt8.le_iff_toNat_le.mp h.2).trans (by decide)
  have hval : (Char.ofUInt8 b).val.toNat = b.toNat := rfl
  unfold String.utf8EncodeChar
  dsimp only
  rw [hval, if_pos hle, UInt8.ofNat_toNat]

/-- So a text of such characters is its own encoding. -/
theorem utf8_chars {bytes : List UInt8} (h : ∀ b ∈ bytes, Printable b) : utf8 (chars bytes) = bytes := by
  induction bytes with
  | nil => rfl
  | cons b bytes ih =>
    obtain ⟨hb, hbytes⟩ := List.forall_mem_cons.mp h
    show String.utf8EncodeChar (Char.ofUInt8 b) ++ utf8 (chars bytes) = _
    rw [hb.encode, ih hbytes]
    rfl

/-- It has a byte for each character. -/
theorem length_utf8_chars {bytes : List UInt8} (h : ∀ b ∈ bytes, Printable b) :
    (utf8 (chars bytes)).length = (chars bytes).length := by
  rw [utf8_chars h, chars, List.length_map]

namespace Shell

/-- A printable character is echoed and joins the line, which has room for 128 bytes. -/
theorem turn_printable (s : Shell) {b : UInt8} (h : Printable b) :
    s.turn b =
      if (utf8 s.line).length < 128 then
        ([[b]], { s with line := s.line ++ [Char.ofUInt8 b], sawCr := false })
      else ([], { s with sawCr := false }) := by
  rw [turn_other s h.endsLine, accept_of_not_end _ h.endsLine]
  exact if_neg h.not_erases

/-- An erase takes the last character from the line, if there is one. -/
theorem turn_erases (s : Shell) {b : UInt8} (h : Erases b) :
    s.turn b =
      if s.line ≠ [] then
        ([[0x08, 0x20, 0x08]], { s with line := s.line.dropLast, sawCr := false })
      else ([], { s with sawCr := false }) := by
  rw [turn_other s h.endsLine, accept_of_not_end _ h.endsLine]
  exact if_pos h

end Shell

/-! ## Text in a row -/

section

variable {cols rows : ℕ} {g : Grid cols rows}

/-- The row of the cursor holds a text that begins in some column and ends before the cursor. -/
structure Holds (g : Grid cols rows) (start : ℕ) (text : List UInt8) : Prop where
  col : g.col = start + text.length
  cells : ∀ i < text.length, g.at? g.row (start + i) = text[i]?

/-- The empty text is before the cursor. -/
theorem holds_nil (g : Grid cols rows) : Holds g g.col [] where
  col := rfl
  cells i hi := absurd hi (Nat.not_lt_zero i)

/-- Before the last column, a character goes to the cell at the cursor, which moves on. -/
theorem put_of_lt {b : UInt8} (hb : b ≠ 0x0a) (hcol : g.col + 1 < cols) :
    g.put b = { g.set b with col := ⟨g.col + 1, hcol⟩ } := by
  rw [Grid.put, if_neg hb, dif_pos hcol]

/-- A character that fits is put at the end of the text. -/
theorem Holds.put {start : ℕ} {text : List UInt8} {b : UInt8} (h : Holds g start text) (hb : b ≠ 0x0a)
    (hcol : start + text.length + 1 < cols) : Holds (g.put b) start (text ++ [b]) := by
  have hlt : g.col + 1 < cols := by rw [h.col]; exact hcol
  rw [put_of_lt hb hlt]
  refine ⟨?_, fun i hi => ?_⟩
  · rw [List.length_append]
    exact congrArg (· + 1) h.col
  · show (g.set b).at? g.row (start + i) = _
    rw [Grid.at?_set]
    rw [List.length_append, List.length_singleton] at hi
    have hcol := h.col
    by_cases hlast : i < text.length
    · rw [if_neg (by omega), h.cells i hlast, List.getElem?_append_left hlast]
    · obtain rfl : i = text.length := by omega
      rw [if_pos ⟨rfl, hcol.symm⟩, List.getElem?_concat_length]

/-- Several characters that fit. -/
theorem Holds.putAll {start : ℕ} {text bytes : List UInt8} (h : Holds g start text)
    (hbytes : 0x0a ∉ bytes) (hcol : start + (text ++ bytes).length < cols) :
    Holds (g.putAll bytes) start (text ++ bytes) := by
  induction bytes generalizing g text with
  | nil =>
    rw [List.append_nil]
    exact h
  | cons b bytes ih =>
    obtain ⟨hb, hbytes⟩ := not_or.mp (mt List.mem_cons.mpr hbytes)
    rw [List.length_append, List.length_cons] at hcol
    have hput : Holds (g.put b) start (text ++ [b]) := h.put (Ne.symm hb) (by omega)
    have hall := ih hput hbytes (by simp only [List.length_append, List.length_singleton]; omega)
    rw [List.append_assoc] at hall
    exact hall

/-- The last character that was put is the last one of the text. -/
theorem Holds.getLast {start : ℕ} {text : List UInt8} {b : UInt8} (hb : b ≠ 0x0a)
    (h : Holds (g.put b) start text) (hne : text ≠ []) : text.getLast? = some b := by
  have hpos := List.length_pos_of_ne_nil hne
  have hcol := h.col
  by_cases hlt : g.col + 1 < cols
  · rw [put_of_lt hb hlt] at h hcol
    have hcell := h.cells (text.length - 1) (by omega)
    have hsum : start + (text.length - 1) = g.col := by
      have hnext : g.col + 1 = start + text.length := hcol
      omega
    rw [List.getLast?_eq_getElem?, ← hcell, hsum]
    show (g.set b).at? g.row g.col = some b
    rw [Grid.at?_set, if_pos ⟨rfl, rfl⟩]
  · -- The cursor has come to the first column, where no text ends.
    have hhome : ((g.put b).col : ℕ) = 0 := by
      rw [Grid.put, if_neg hb, dif_neg hlt, Grid.newline]
      split
      · rfl
      · rfl
    omega

end

/-! ## A prompt -/

/-- A prompt of the shell: the console, what it has got before, and the lines submitted so far. -/
structure Prompt where
  fb : Framebuffer
  fg : UInt32
  bg : UInt32
  /-- The bytes that the console got before the prompt. -/
  before : Bytes
  submitted : List (List Char)

namespace Prompt

/-- The shell at the prompt. Its line is empty. -/
def shell (p : Prompt) : Shell := (Shell.prompt ⟨[], false, p.submitted⟩).2

/-- The line of the shell after some bytes have been typed. -/
def line (p : Prompt) (typed : List UInt8) : List Char := (p.shell.feed typed).2.line

/-- What the shell has written by then, with the prompt. -/
def writes (p : Prompt) (typed : List UInt8) : List Bytes :=
  (Shell.prompt ⟨[], false, p.submitted⟩).1 ++ (p.shell.feed typed).1

/-- What the console has got. -/
def bytes (p : Prompt) (typed : List UInt8) : Bytes := p.before ++ (p.writes typed).flatten

/-- The console after some bytes, with its accesses to the frame buffer. -/
def console (p : Prompt) (bytes : Bytes) : List Access × Console :=
  (Console.new p.fb p.fg p.bg).writeBytes bytes

/-- The grid of characters after some bytes. -/
def grid (p : Prompt) (bytes : Bytes) : Grid p.fb.cols p.fb.rows := p.fb.blank.putAll bytes

/-- The column in which the prompt begins. -/
def start (p : Prompt) : ℕ := (p.console p.before).2.col

/-- The prompt, the line and the cursor after it have room in the row in which the prompt begins. -/
def InRow (p : Prompt) (typed : List UInt8) : Prop :=
  p.start + (ascii "$ ").length + (p.line typed).length < p.fb.cols

instance (p : Prompt) (typed : List UInt8) : Decidable (p.InRow typed) := Nat.decLt _ _

/-- The screen keeps up with the shell: the cursor is as far behind the prompt as the line is long, and the
cells of its row from the prompt up to the cursor show the prompt and the line. What the cells of the
grid are is what the pixels show. -/
structure InStep (p : Prompt) (mem : Vram) (typed : List UInt8) : Prop where
  col : (p.console (p.bytes typed)).2.col =
    (p.console (p.before ++ ascii "$ ")).2.col + (p.line typed).length
  cells : Holds (p.grid (p.bytes typed)) p.start (ascii "$ " ++ utf8 (p.line typed))
  cursor : (p.console (p.bytes typed)).2 = (p.grid (p.bytes typed)).console p.fg p.bg
  pixels : p.fb.Geometry →
    p.fb.Shows (Access.run mem (p.fb.clear p.bg ++ (p.console (p.bytes typed)).1))
      ((p.grid (p.bytes typed)).picture p.fg p.bg)

variable {p : Prompt} {typed : List UInt8} {b : UInt8}

/-- What one more byte changes is what the shell makes of it in a turn. -/
theorem concat (p : Prompt) (typed : List UInt8) (b : UInt8) :
    p.line (typed ++ [b]) = ((p.shell.feed typed).2.turn b).2.line ∧
      p.bytes (typed ++ [b]) = p.bytes typed ++ ((p.shell.feed typed).2.turn b).1.flatten := by
  refine ⟨by rw [line, Shell.feed_concat], ?_⟩
  rw [bytes, bytes, writes, writes, Shell.feed_concat]
  simp only [List.flatten_append, List.append_assoc]

/-- A printable character joins the line and is echoed, or the line is full. -/
theorem concat_printable (p : Prompt) (typed : List UInt8) (hb : Printable b) :
    p.line (typed ++ [b]) = p.line typed ++ [Char.ofUInt8 b] ∧
        p.bytes (typed ++ [b]) = p.bytes typed ++ [b] ∨
      p.line typed ≠ [] ∧ p.line (typed ++ [b]) = p.line typed ∧
        p.bytes (typed ++ [b]) = p.bytes typed := by
  obtain ⟨hline, hbytes⟩ := p.concat typed b
  rw [hline, hbytes, Shell.turn_printable _ hb]
  split
  · exact .inl ⟨rfl, rfl⟩
  · rename_i hfull
    refine .inr ⟨fun hempty => hfull ?_, rfl, List.append_nil _⟩
    rw [show (p.shell.feed typed).2.line = [] from hempty]
    decide

/-- An erase takes a character from the line, and is echoed as three bytes. An empty line stays. -/
theorem concat_erases (p : Prompt) (typed : List UInt8) (hb : Erases b) :
    p.line typed ≠ [] ∧ p.line (typed ++ [b]) = (p.line typed).dropLast ∧
        p.bytes (typed ++ [b]) = p.bytes typed ++ [0x08, 0x20, 0x08] ∨
      p.line typed = [] ∧ p.line (typed ++ [b]) = [] ∧ p.bytes (typed ++ [b]) = p.bytes typed := by
  obtain ⟨hline, hbytes⟩ := p.concat typed b
  rw [hline, hbytes, Shell.turn_erases _ hb]
  split
  · rename_i hne
    exact .inl ⟨hne, rfl, rfl⟩
  · rename_i hempty
    have hempty : p.line typed = [] := not_not.mp hempty
    exact .inr ⟨hempty, hempty, List.append_nil _⟩

/-- The grid after more bytes. -/
theorem grid_append (p : Prompt) (bytes bytes' : Bytes) :
    p.grid (bytes ++ bytes') = (p.grid bytes).putAll bytes' := List.foldl_append

/-- The console is at the cursor of the grid. -/
theorem console_eq (p : Prompt) (bytes : Bytes) :
    (p.console bytes).2 = (p.grid bytes).console p.fg p.bg :=
  console_writeBytes p.fb.blank bytes

/-- While no other call of `write` is in flight, the calls of the shell, after one with the bytes before
the prompt, bring the console there. -/
theorem trace_screen {ι : Type} [DecidableEq ι] (p : Prompt) (typed : List UInt8) (i : ι) :
    ∃ us m, Trace (Kernel.Writers.installed (Console.new p.fb p.fg p.bg)) Kernel.Writers.Step us m ∧
      yielded (fun x => x.act.bufs) us = p.before :: p.writes typed ∧
      m.Free i (p.console (p.bytes typed)).2 :=
  Kernel.Writers.trace_writes ⟨rfl, rfl, rfl⟩ (p.before :: p.writes typed)

/-- The line has printable characters. -/
theorem exists_text (p : Prompt) (h : ∀ b ∈ typed, Printable b ∨ Erases b) :
    ∃ text, p.line typed = chars text ∧ ∀ b ∈ text, Printable b := by
  induction typed using List.reverseRecOn with
  | nil => exact ⟨[], rfl, List.forall_mem_nil _⟩
  | append_singleton typed b ih =>
    obtain ⟨htyped, hb⟩ := List.forall_mem_append.mp h
    obtain ⟨text, hline, htext⟩ := ih htyped
    rcases hb b List.mem_cons_self with hb | hb
    · rcases p.concat_printable typed hb with ⟨hmore, -⟩ | ⟨-, hsame, -⟩
      · refine ⟨text ++ [b], ?_, List.forall_mem_append.mpr ⟨htext, by simpa using hb⟩⟩
        rw [hmore, hline, chars, chars, List.map_append]
        rfl
      · exact ⟨text, hsame.trans hline, htext⟩
    · rcases p.concat_erases typed hb with ⟨-, hless, -⟩ | ⟨-, hempty, -⟩
      · refine ⟨text.dropLast, ?_, fun b hb => htext b (List.dropLast_subset text hb)⟩
        rw [hless, hline, chars, chars, List.map_dropLast]
      · exact ⟨[], hempty, List.forall_mem_nil _⟩

/-- Where no character has been erased, the line is empty exactly if none has been typed. -/
theorem line_eq_nil_iff (p : Prompt) (h : ∀ b ∈ typed, Printable b ∨ Erases b)
    (hkept : typed.Pairwise fun b b' => Printable b → ¬Erases b') :
    p.line typed = [] ↔ ∀ b ∈ typed, ¬Printable b := by
  induction typed using List.reverseRecOn with
  | nil => exact iff_of_true rfl (List.forall_mem_nil _)
  | append_singleton typed b ih =>
    obtain ⟨htyped, hb⟩ := List.forall_mem_append.mp h
    obtain ⟨hkept, -, hlast⟩ := List.pairwise_append.mp hkept
    have hnil := ih htyped hkept
    rw [List.forall_mem_append]
    rcases hb b List.mem_cons_self with hb | hb
    · -- The line has the new character, or it was full and has others.
      refine iff_of_false ?_ fun hnone => hnone.2 b List.mem_cons_self hb
      rcases p.concat_printable typed hb with ⟨hmore, -⟩ | ⟨hne, hsame, -⟩
      · rw [hmore]
        exact List.append_ne_nil_of_right_ne_nil _ (List.cons_ne_nil _ _)
      · rwa [hsame]
    · have hempty : p.line typed = [] :=
        hnil.mpr fun a ha hprint => hlast a ha b List.mem_cons_self hprint hb
      rcases p.concat_erases typed hb with ⟨hne, -⟩ | ⟨-, hsame, -⟩
      · exact absurd hempty hne
      · refine iff_of_true hsame ⟨hnil.mp hempty, ?_⟩
        simpa using fun hprint => Printable.not_erases hprint hb

/-- The prompt is in the row. -/
theorem holds_prompt (hrow : p.InRow []) :
    Holds (p.grid (p.before ++ ascii "$ ")) p.start (ascii "$ ") := by
  have hstart : p.start = (p.grid p.before).col := by
    rw [start, console_eq]
    rfl
  have hnil := holds_nil (p.grid p.before)
  rw [← hstart] at hnil
  rw [grid_append]
  exact hnil.putAll (by decide) hrow

/-- The screen keeps up exactly if the row shows the prompt and the line. -/
theorem inStep_iff_holds (hrow : p.InRow []) (htyped : ∀ b ∈ typed, Printable b ∨ Erases b)
    (mem : Vram) :
    p.InStep mem typed ↔
      Holds (p.grid (p.bytes typed)) p.start (ascii "$ " ++ utf8 (p.line typed)) := by
  constructor
  · intro h
    exact h.cells
  · intro h
    refine ⟨?_, h, p.console_eq _, fun hfb => hfb.shows_writeBytes _ _ mem _⟩
    obtain ⟨text, hline, htext⟩ := p.exists_text htyped
    rw [console_eq, console_eq]
    show ((p.grid (p.bytes typed)).col : ℕ) = (p.grid (p.before ++ ascii "$ ")).col + _
    rw [h.col, (holds_prompt hrow).col, List.length_append, hline, length_utf8_chars htext,
      Nat.add_assoc]

/-- The screen shows the prompt before a byte is typed. -/
theorem inStep_nil (hrow : p.InRow []) (mem : Vram) : p.InStep mem [] := by
  rw [inStep_iff_holds hrow (List.forall_mem_nil _)]
  exact holds_prompt hrow

/-- The screen keeps up with one more byte exactly if it erases no character. -/
theorem inStep_concat (hrow : ∀ pre, pre <+: typed ++ [b] → p.InRow pre)
    (htyped : ∀ a ∈ typed ++ [b], Printable a ∨ Erases a) {mem : Vram} (h : p.InStep mem typed) :
    p.InStep mem (typed ++ [b]) ↔ (Erases b → p.line typed = []) := by
  have hroom : p.InRow (typed ++ [b]) := hrow _ (List.prefix_refl _)
  obtain ⟨text, hline, htext⟩ := p.exists_text (List.forall_mem_append.mp htyped).1
  have hholds : Holds (p.grid (p.bytes typed)) p.start (ascii "$ " ++ utf8 (p.line typed)) := h.cells
  rw [inStep_iff_holds (hrow [] List.nil_prefix) htyped]
  rcases htyped b (List.mem_append_right _ List.mem_cons_self) with hb | hb
  · refine iff_of_true ?_ fun he => absurd he hb.not_erases
    rcases p.concat_printable typed hb with ⟨hmore, hbytes⟩ | ⟨-, hsame, hbytes⟩
    · have hutf8 : utf8 (p.line (typed ++ [b])) = utf8 (p.line typed) ++ [b] := by
        rw [hmore, utf8, List.flatMap_append, List.flatMap_singleton, hb.encode]
        rfl
      rw [hbytes, grid_append, hutf8, ← List.append_assoc]
      refine hholds.put (fun he => ?_) ?_
      · rw [he] at hb
        exact absurd hb (by decide)
      · rw [InRow, hmore, List.length_append, List.length_singleton] at hroom
        rw [List.length_append, hline, length_utf8_chars htext, ← hline]
        omega
    · rw [hbytes, hsame]
      exact hholds
  · rcases p.concat_erases typed hb with ⟨hne, hless, hbytes⟩ | ⟨hempty, hsame, hbytes⟩
    · refine iff_of_false (fun hnew => ?_) fun hno => hne (hno hb)
      -- The cell before the cursor has a backspace, which is no character of the line.
      obtain ⟨text', hline', htext'⟩ := p.exists_text htyped
      rw [hbytes, grid_append, hline', utf8_chars htext'] at hnew
      have hput : Holds ((((p.grid (p.bytes typed)).put 0x08).put 0x20).put 0x08) p.start
          (ascii "$ " ++ text') := hnew
      have hlast := hput.getLast (by decide) (List.append_ne_nil_of_left_ne_nil (by decide) _)
      rcases List.mem_append.mp (List.mem_of_getLast? hlast) with hin | hin
      · exact absurd hin (by decide)
      · exact absurd (htext' _ hin) (by decide)
    · refine iff_of_true ?_ fun _ => hempty
      rw [hbytes, hsame, ← hempty]
      exact hholds

end Prompt

/-- At a prompt, as long as the line stays in the row, the screen keeps up with the shell after each byte
exactly if no byte that erases is typed after a printable character. -/
theorem inStep_iff (p : Prompt) (mem : Vram) (typed : List UInt8)
    (htyped : ∀ b ∈ typed, Printable b ∨ Erases b) (hrow : ∀ pre, pre <+: typed → p.InRow pre) :
    (∀ pre, pre <+: typed → p.InStep mem pre) ↔
      typed.Pairwise fun b b' => Printable b → ¬Erases b' := by
  induction typed using List.reverseRecOn with
  | nil =>
    refine iff_of_true (fun pre hpre => ?_) .nil
    rw [List.prefix_nil.mp hpre]
    exact Prompt.inStep_nil (hrow [] List.nil_prefix) mem
  | append_singleton typed b ih =>
    have htyped' := (List.forall_mem_append.mp htyped).1
    -- Both sides say of all but the last byte what they said before, and something of the last.
    have hstep : (∀ pre, pre <+: typed ++ [b] → p.InStep mem pre) ↔
        (∀ pre, pre <+: typed → p.InStep mem pre) ∧ p.InStep mem (typed ++ [b]) := by
      simp only [List.prefix_concat_iff, or_imp, forall_and, forall_eq]
      exact and_comm
    have hpairs : (typed ++ [b]).Pairwise (fun b b' => Printable b → ¬Erases b') ↔
        typed.Pairwise (fun b b' => Printable b → ¬Erases b') ∧
          ∀ a ∈ typed, Printable a → ¬Erases b := by
      simp [List.pairwise_append]
    rw [hstep, hpairs, ← ih htyped' fun pre hpre => hrow pre (hpre.trans (List.prefix_append _ _))]
    refine and_congr_right fun hall => ?_
    have hkept := (ih htyped' fun pre hpre => hrow pre (hpre.trans (List.prefix_append _ _))).mp hall
    rw [Prompt.inStep_concat hrow htyped (hall typed (List.prefix_refl _)),
      p.line_eq_nil_iff htyped' hkept]
    exact ⟨fun h a ha hprint he => h he a ha hprint, fun h he a ha hprint => h a ha hprint he⟩

/-- The first prompt, on a console with ten columns. -/
def firstPrompt : Prompt := ⟨⟨0x1000, 80, 32, 320⟩, 0xffffff, 0, [], []⟩

/-- The screen keeps up with an `a`. -/
theorem inStep_iff_letter : firstPrompt.InStep (fun _ => 0) [0x61] := by
  have hrow : ∀ pre ∈ [0x61].inits, firstPrompt.InRow pre := by decide
  have htyped : ∀ b ∈ [0x61], Printable b ∨ Erases b :=
    List.forall_mem_cons.mpr ⟨.inl (by decide), List.forall_mem_nil _⟩
  have hiff := inStep_iff firstPrompt (fun _ => 0) [0x61] htyped fun pre hpre =>
    hrow pre ((List.mem_inits _ _).mpr hpre)
  exact hiff.mpr (List.pairwise_singleton ..) _ (List.prefix_refl _)

/-- An `a` that is erased leaves the cursor four columns too far to the right. -/
theorem not_inStep : ¬∀ (p : Prompt) (mem : Vram) (typed : List UInt8),
    (∀ b ∈ typed, Printable b ∨ Erases b) → (∀ pre, pre <+: typed → p.InRow pre) →
      ∀ pre, pre <+: typed → p.InStep mem pre := by
  intro hall
  have hrow : ∀ pre ∈ [0x61, 0x08].inits, firstPrompt.InRow pre := by decide
  have htyped : ∀ b ∈ [0x61, 0x08], Printable b ∨ Erases b :=
    List.forall_mem_cons.mpr ⟨.inl (by decide),
      List.forall_mem_cons.mpr ⟨.inr (by decide), List.forall_mem_nil _⟩⟩
  have h := hall firstPrompt (fun _ => 0) [0x61, 0x08] htyped
    (fun pre hpre => hrow pre ((List.mem_inits _ _).mpr hpre)) _ (List.prefix_refl _)
  exact absurd h.col (by decide)

end Ralix.User
