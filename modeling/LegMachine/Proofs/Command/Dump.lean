import LegMachine.Command.RunImage
import LegMachine.Proofs.Machine.FlagText
import Mathlib.Data.List.FinRange

/-!
# What a dump of the registers shows

A dump has nine lines: four registers stand on each of the first eight, and the program counter and
the flags on the last (`splitAt_dump`). Lines and cells are told apart again, so two processors have
the same dump only if they agree in all that it shows (`dump_eq_iff`).
-/

namespace LegMachine

/-! ## Texts on one line -/

namespace Text

theorem splitAt_lines {separator : Char} {lines : List (List Char)}
    (h : ∀ line ∈ lines, separator ∉ line) :
    splitAt separator (lines.flatMap (· ++ [separator])) = lines ++ [[]] := by
  induction lines with
  | nil => rfl
  | cons line lines ih =>
    obtain ⟨hline, hlines⟩ := List.forall_mem_cons.1 h
    rw [List.flatMap_cons, List.append_assoc, List.singleton_append, splitAt_append hline,
      ih hlines, List.cons_append]

theorem newline_notMem_of_isWord {text : List Char} (h : IsWord text) : '\n' ∉ text :=
  fun hmem => absurd (h.2 _ hmem) (by decide)

theorem newline_notMem_toDigits {b : Nat} (hb : 1 < b) (hb' : b ≤ 16) (n : Nat) :
    '\n' ∉ Nat.toDigits b n :=
  fun hmem => absurd (isAlphanum_of_mem_toDigits hb hb' hmem) (by decide)

theorem newline_notMem_hexWord (w : Word) : '\n' ∉ hexWord w := by
  have hdigits := newline_notMem_toDigits (b := 16) (by decide) (by decide) w.toNat
  simp [hexWord, hdigits]

theorem length_hexWord (w : Word) : (hexWord w).length = 10 := by
  have hdigits : (Nat.toDigits 16 w.toNat).length ≤ 8 :=
    (Nat.length_toDigits_le_iff (by decide) (by decide)).2 w.isLt
  rw [hexWord, List.length_cons, List.length_cons, List.length_leftpad, Nat.max_eq_left hdigits]

theorem newline_notMem_intercalate {separator : List Char} {texts : List (List Char)}
    (hseparator : '\n' ∉ separator) (htexts : ∀ text ∈ texts, '\n' ∉ text) :
    '\n' ∉ separator.intercalate texts := by
  induction texts with
  | nil => exact List.not_mem_nil
  | cons text texts ih =>
    obtain ⟨htext, hrest⟩ := List.forall_mem_cons.1 htexts
    cases texts with
    | nil =>
      rw [List.intercalate_singleton]
      exact htext
    | cons next texts =>
      rw [List.intercalate_cons_cons]
      simp [htext, hseparator, ih hrest]

end Text

namespace Flags

theorem newline_notMem_report (f : Flags) : '\n' ∉ f.report := by
  have htext : '\n' ∉ f.toText :=
    Text.newline_notMem_intercalate (by decide)
      fun part hpart => Text.newline_notMem_of_isWord (isWord_of_mem_parts hpart).1
  unfold report
  split <;> simp [htext]

theorem report_injective : Function.Injective report := by
  intro f g h
  -- what stands between the brackets is read back, also where no flag is set
  have hread : ∀ f : Flags, ofText? (if f.parts.isEmpty then ['0', 'x', '0'] else f.toText) =
      some f := by
    intro f
    have htext := ofText?_toText f
    split
    · next hempty =>
      rw [toText, List.isEmpty_iff.1 hempty] at htext
      rw [← htext]
      decide
    · exact htext
  have hinner := List.append_cancel_left (List.append_cancel_right h)
  exact Option.some.inj ((hread f).symm.trans (hinner ▸ hread g))

end Flags

namespace Command

/-! ## The lines of a dump -/

variable (p : Processor)

def registerCell (r : Register) : List Char :=
  'X' :: (Nat.toDigits 10 r.val).rightpad 2 ' ' ++ " = ".toList ++ Text.hexWord (p.integers.get r)

/-- Four registers in a dump. -/
def registerLine (line : Fin 8) : List Char :=
  [' ', ' '].intercalate
    ((List.finRange 4).map fun column : Fin 4 => registerCell p ⟨4 * line + column, by omega⟩)

/-- The last line of a dump. -/
def statusLine : List Char :=
  "PC  = ".toList ++ Text.hexWord p.pc ++ "  flags = ".toList ++ p.flags.report

theorem newline_notMem_registerCell (r : Register) : '\n' ∉ registerCell p r := by
  have hnumber := Text.newline_notMem_toDigits (b := 10) (by decide) (by decide) r
  simp [registerCell, hnumber, Text.newline_notMem_hexWord]

theorem newline_notMem_registerLine (line : Fin 8) : '\n' ∉ registerLine p line := by
  refine Text.newline_notMem_intercalate (by decide) fun text htext => ?_
  obtain ⟨column, -, rfl⟩ := List.mem_map.1 htext
  exact newline_notMem_registerCell p _

theorem newline_notMem_statusLine : '\n' ∉ statusLine p := by
  unfold statusLine
  simp only [List.mem_append, not_or]
  exact ⟨⟨⟨by decide, Text.newline_notMem_hexWord _⟩, by decide⟩, Flags.newline_notMem_report _⟩

theorem dumpRegisters_eq :
    dumpRegisters p = (List.finRange 32).flatMap fun r =>
      registerCell p r ++ if r.val % 4 = 3 then ['\n'] else [' ', ' '] := by
  have hzip : p.integers.toList.zipIdx =
      (List.finRange 32).map fun r => (p.integers[r], r.val) :=
    List.ext_getElem (by simp) fun k hk hk' => by simp
  unfold dumpRegisters
  rw [hzip, List.flatMap_map]
  refine List.flatMap_congr fun r _ => ?_
  rfl

theorem finRange_eq_flatMap :
    List.finRange 32 = (List.finRange 8).flatMap fun line =>
      (List.finRange 4).map fun column : Fin 4 => ⟨4 * line + column, by omega⟩ := by
  decide

theorem dumpRegisters_eq_lines :
    dumpRegisters p = (List.finRange 8).flatMap fun line => registerLine p line ++ ['\n'] := by
  rw [dumpRegisters_eq, finRange_eq_flatMap, List.flatMap_assoc]
  refine List.flatMap_congr fun line _ => ?_
  have hcolumns : List.finRange 4 = [0, 1, 2, 3] := rfl
  simp [registerLine, hcolumns, List.intercalate_cons_cons, Nat.add_mod]

/-- A dump has nine lines, and a line end behind the last one. -/
theorem splitAt_dump :
    Text.splitAt '\n' (dump p).toList =
      (List.finRange 8).map (registerLine p) ++ [statusLine p, []] := by
  have hlines : (dump p).toList =
      ((List.finRange 8).map (registerLine p) ++ [statusLine p]).flatMap (· ++ ['\n']) := by
    unfold dump statusLine
    rw [String.toList_ofList, dumpRegisters_eq_lines, List.flatMap_append, List.flatMap_map,
      List.flatMap_singleton]
    simp only [List.append_assoc]
  rw [hlines, Text.splitAt_lines, List.append_assoc]
  · rfl
  · intro line hline
    rcases List.mem_append.1 hline with h | h
    · obtain ⟨k, -, rfl⟩ := List.mem_map.1 h
      exact newline_notMem_registerLine p k
    · rw [List.mem_singleton.1 h]
      exact newline_notMem_statusLine p

/-! ## What a dump tells apart -/

theorem eq_of_intercalate_map_eq {α β : Type} {separator : List β} {f g : α → List β}
    {items : List α} (hlength : ∀ a, (f a).length = (g a).length)
    (h : separator.intercalate (items.map f) = separator.intercalate (items.map g)) :
    ∀ a ∈ items, f a = g a := by
  induction items with
  | nil => exact nofun
  | cons a items ih =>
    cases items with
    | nil =>
      rw [List.map_singleton, List.map_singleton, List.intercalate_singleton,
        List.intercalate_singleton] at h
      exact List.forall_mem_singleton.2 h
    | cons b items =>
      simp only [List.map_cons, List.intercalate_cons_cons, List.append_assoc] at h
      obtain ⟨ha, hrest⟩ := List.append_inj h (hlength a)
      exact List.forall_mem_cons.2 ⟨ha, ih (List.append_cancel_left hrest)⟩

variable {p} {q : Processor}

theorem integers_eq_of_registerLine_eq (h : ∀ line, registerLine p line = registerLine q line) :
    p.integers = q.integers := by
  have hlength (r : Register) : (registerCell p r).length = (registerCell q r).length := by
    simp [registerCell, Text.length_hexWord]
  have hcell (r : Register) : registerCell p r = registerCell q r := by
    have hcells := eq_of_intercalate_map_eq (fun column => hlength _) (h ⟨r / 4, by omega⟩)
      ⟨r % 4, by omega⟩ (List.mem_finRange _)
    have hr : (⟨4 * (r.val / 4) + r.val % 4, by omega⟩ : Register) = r :=
      Fin.ext (Nat.div_add_mod r.val 4)
    dsimp only at hcells
    rwa [hr] at hcells
  apply Vector.ext
  intro k hk
  exact Text.hexWord_injective (List.append_cancel_left (hcell ⟨k, hk⟩))

theorem status_eq_of_statusLine_eq (h : statusLine p = statusLine q) :
    p.pc = q.pc ∧ p.flags = q.flags := by
  unfold statusLine at h
  simp only [List.append_assoc] at h
  obtain ⟨hpc, hflags⟩ := List.append_inj (List.append_cancel_left h)
    ((Text.length_hexWord p.pc).trans (Text.length_hexWord q.pc).symm)
  exact ⟨Text.hexWord_injective hpc, Flags.report_injective (List.append_cancel_left hflags)⟩

/-- A dump tells all integer registers, the program counter and the flags, and nothing else. -/
theorem dump_eq_iff :
    dump p = dump q ↔ p.integers = q.integers ∧ p.pc = q.pc ∧ p.flags = q.flags := by
  constructor
  · intro h
    have hlines : (List.finRange 8).map (registerLine p) ++ [statusLine p, []] =
        (List.finRange 8).map (registerLine q) ++ [statusLine q, []] :=
      (splitAt_dump p).symm.trans (h ▸ splitAt_dump q)
    obtain ⟨hregisters, hstatus⟩ := List.append_inj hlines (by simp)
    have hline (line : Fin 8) : registerLine p line = registerLine q line :=
      List.map_inj_left.1 hregisters line (List.mem_finRange line)
    exact ⟨integers_eq_of_registerLine_eq hline,
      status_eq_of_statusLine_eq (List.cons.inj hstatus).1⟩
  · rintro ⟨hintegers, hpc, hflags⟩
    unfold dump dumpRegisters
    rw [hintegers, hpc, hflags]

end Command

end LegMachine
