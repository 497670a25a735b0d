/-
# PTEditor.Library.Printing -- what the printed entries tell

`ptedit_print_entry_line` prints an entry as a row of columns, set bits in colour, and
`ptedit_print_entry_t` a whole record, level by level.  On x86-64 the row has no column for
bits 52 to 62; on aarch64 it has one for every bit.

`print_entry_t_iff`: from the text of a record a reader can tell which of its levels are valid,
and of each valid entry every bit that has a column, and nothing else.
-/
import PTEditor.Interface.Entry
import PTEditor.Theory.Columns

namespace PTEditor.Library.Printing

open PTEditor.Theory.ByteMemory PTEditor.Theory.Columns PTEditor.Interface

set_option autoImplicit false

/-! ## The library -/

def green : Text := "\x1b[32m".toList

def reset : Text := "\x1b[0m".toList

/-- The formats of the columns: `%d` with its blanks, or `%2d`. -/
inductive Format where
  | plain
  | before
  | around
  | two
  deriving DecidableEq, Repr

def Format.text (format : Format) (n : Nat) : Text :=
  let decimal := Nat.toDigits 10 n
  match format with
  | .plain => decimal
  | .before => ' ' :: decimal
  | .around => ' ' :: decimal ++ [' ']
  | .two => List.replicate (2 - decimal.length) ' ' ++ decimal

def printB (format : Format) (bit : Nat) : Text :=
  (if bit ≠ 0 then green ++ format.text bit ++ reset else format.text bit) ++ ['|']

/-- What the C library makes of `%p`. -/
def pointer (n : Nat) : Text :=
  if n = 0 then "(nil)".toList else '0' :: 'x' :: Nat.toDigits 16 n

def padLeft (width : Nat) (text : Text) : Text := List.replicate (width - text.length) ' ' ++ text

def printPointer (n : Nat) : Text := ' ' :: padLeft 16 (pointer n) ++ [' ', '|']

/-- A column: some bits, highest first, or the PFN with its number of bits. -/
inductive Column where
  | bits (format : Format) (positions : List Nat)
  | pfn (width : Nat)
  deriving DecidableEq, Repr

/-- `PTEDIT_B(entry, 63) << 1 | PTEDIT_B(entry, 62)`, and so on. -/
def bitsValue (positions : List Nat) (entry : Word) : Nat :=
  positions.foldl (fun value i => 2 * value + (entry.getLsbD i).toNat) 0

def pfnValue (width : Nat) (entry : Word) : Nat :=
  ((entry >>> 12) &&& ((1#64 <<< width) - 1)).toNat

def Column.print (entry : Word) : Column → Text
  | .bits format positions => printB format (bitsValue positions entry)
  | .pfn width => printPointer (pfnValue width entry)

/-- The columns between the first `|` and the end of the line. -/
def columns : Arch → List Column
  | .x86_64 =>
      [.bits .before [63], .pfn 40, .bits .plain [12], .bits .plain [11], .bits .plain [10],
        .bits .plain [9], .bits .plain [8], .bits .plain [7], .bits .plain [6], .bits .plain [5],
        .bits .before [4], .bits .before [3], .bits .plain [2], .bits .plain [1], .bits .plain [0]]
  | .aarch64 =>
      [.bits .two [63, 62, 61, 60, 59], .bits .two [58, 57, 56, 55], .bits .before [54],
        .bits .around [53], .bits .plain [52], .bits .two [51, 50, 49, 48], .pfn 36,
        .bits .before [11], .bits .plain [10], .bits .plain [9, 8], .bits .plain [7, 6],
        .bits .before [5], .bits .around [4, 3, 2], .bits .plain [1, 0]]

def border : Arch → Text
  | .x86_64 => "+--+------------------+-+-+-+-+-+-+-+-+--+--+-+-+-+\n".toList
  | .aarch64 => "+--+--+--+---+-+--+------------------+--+-+-+-+--+---+-+\n".toList

def header : Arch → Text
  | .x86_64 => "|NX|       PFN        |H|?|?|?|G|S|D|A|UC|WT|U|W|P|\n".toList
  | .aarch64 => "| ?| ?|XN|PXN|C| ?|        PFN       |NG|A|S|P|NS|MAI|T|\n".toList

def pteditPrintEntryLine (arch : Arch) (entry : Word) (line : Nat) : Text :=
  (if line = 0 ∨ line = 3 then border arch else []) ++
    ((if line = 1 then header arch else []) ++
      if line = 2 then '|' :: (columns arch).flatMap (Column.print entry) ++ ['\n'] else [])

def pteditPrintEntry (arch : Arch) (entry : Word) : Text :=
  (List.range 4).flatMap (pteditPrintEntryLine arch entry)

def title : Level → Text
  | .pgd => "PGD of address\n".toList
  | .p4d => "P4D of address\n".toList
  | .pud => "PUD of address\n".toList
  | .pmd => "PMD of address\n".toList
  | .pte => "PTE of address\n".toList

def printLevel (arch : Arch) (entry : Entry) (level : Level) : Text :=
  if marks entry.valid level then title level ++ pteditPrintEntry arch (entry.word level) else []

def pteditPrintEntryT (arch : Arch) (entry : Entry) : Text :=
  [Level.pgd, .p4d, .pud, .pmd, .pte].flatMap (printLevel arch entry)

/-! ## Columns of bits -/

/-- No text of a format begins another one. -/
theorem printB_apart (format : Format) :
    ∀ m < 32, ∀ n < 32, printB format m <+: printB format n → m = n := by
  cases format <;> decide +kernel

theorem bitsValue_lt (positions : List Nat) (entry : Word) :
    bitsValue positions entry < 2 ^ positions.length := by
  have general : ∀ value, positions.foldl
      (fun value i => 2 * value + (entry.getLsbD i).toNat) value <
        (value + 1) * 2 ^ positions.length := by
    induction positions with
    | nil =>
        intro value
        simp
    | cons i rest ih =>
        intro value
        have later := ih (2 * value + (entry.getLsbD i).toNat)
        have digit : (entry.getLsbD i).toNat ≤ 1 := Bool.toNat_le _
        rw [List.foldl_cons, List.length_cons, Nat.pow_succ]
        refine lt_of_lt_of_le later ?_
        calc (2 * value + (entry.getLsbD i).toNat + 1) * 2 ^ rest.length
            ≤ (2 * (value + 1)) * 2 ^ rest.length := Nat.mul_le_mul_right _ (by omega)
          _ = (value + 1) * (2 ^ rest.length * 2) := by
              rw [Nat.mul_comm 2 (value + 1), Nat.mul_assoc, Nat.mul_comm 2]
  have whole := general 0
  rw [Nat.zero_add, Nat.one_mul] at whole
  exact whole

/-- The number is its bits. -/
theorem bitsValue_eq_iff (positions : List Nat) (a b : Word) :
    bitsValue positions a = bitsValue positions b ↔
      ∀ i ∈ positions, a.getLsbD i = b.getLsbD i := by
  have general : ∀ value value', positions.foldl
      (fun value i => 2 * value + (a.getLsbD i).toNat) value =
        positions.foldl (fun value i => 2 * value + (b.getLsbD i).toNat) value' ↔
      value = value' ∧ ∀ i ∈ positions, a.getLsbD i = b.getLsbD i := by
    induction positions with
    | nil =>
        intro value value'
        simp
    | cons i rest ih =>
        intro value value'
        rw [List.foldl_cons, List.foldl_cons, ih, List.forall_mem_cons]
        cases a.getLsbD i <;> cases b.getLsbD i <;> simp <;> omega
  have whole := general 0 0
  rw [eq_self, true_and] at whole
  exact whole

theorem shows_bits (format : Format) {positions : List Nat} (short : positions.length ≤ 5) :
    Shows (fun entry => (Column.bits format positions).print entry) fun a b =>
      ∀ i ∈ positions, a.getLsbD i = b.getLsbD i := by
  have small : ∀ entry, bitsValue positions entry < 32 := fun entry =>
    lt_of_lt_of_le (bitsValue_lt positions entry) (Nat.pow_le_pow_right (by decide) short)
  exact (shows_of_apart (bitsValue positions) (printB format) small (printB_apart format)).congr
    fun a b => bitsValue_eq_iff positions a b

/-! ## The column of the PFN -/

theorem digitChar_injective : ∀ m < 16, ∀ n < 16, Nat.digitChar m = Nat.digitChar n → m = n := by
  decide

/-- Hexadecimal digits decide the number: the last one its residue, the others its quotient. -/
theorem toDigits_injective {m n : Nat} (same : Nat.toDigits 16 m = Nat.toDigits 16 n) : m = n := by
  induction m using Nat.strongRecOn generalizing n with
  | ind m ih =>
      have single : ∀ {k l : Nat}, k < 16 → 16 ≤ l → Nat.toDigits 16 k ≠ Nat.toDigits 16 l := by
        intro k l small large equal
        have lengths := congrArg List.length equal
        rw [Nat.toDigits_of_lt_base small, Nat.toDigits_of_base_le (by decide) large,
          List.length_append, List.length_singleton, List.length_singleton] at lengths
        have positive : 0 < (Nat.toDigits 16 (l / 16)).length := Nat.length_toDigits_pos
        omega
      by_cases smallM : m < 16
      · by_cases smallN : n < 16
        · rw [Nat.toDigits_of_lt_base smallM, Nat.toDigits_of_lt_base smallN,
            List.singleton_inj] at same
          exact digitChar_injective m smallM n smallN same
        · exact absurd same (single smallM (Nat.le_of_not_lt smallN))
      · by_cases smallN : n < 16
        · exact absurd same.symm (single smallN (Nat.le_of_not_lt smallM))
        · rw [Nat.toDigits_of_base_le (by decide) (Nat.le_of_not_lt smallM),
            Nat.toDigits_of_base_le (by decide) (Nat.le_of_not_lt smallN)] at same
          obtain ⟨others, last⟩ := List.append_inj' same rfl
          have quotient := ih (m / 16) (by omega) others
          have residue := digitChar_injective (m % 16) (Nat.mod_lt _ (by decide)) (n % 16)
            (Nat.mod_lt _ (by decide)) (List.singleton_inj.mp last)
          omega

theorem pointer_injective {m n : Nat} (same : pointer m = pointer n) : m = n := by
  unfold pointer at same
  split at same <;> split at same
  · omega
  · exact absurd (congrArg List.head? same) (by simp)
  · exact absurd (congrArg List.head? same) (by simp)
  · exact toDigits_injective (List.cons.inj (List.cons.inj same).2).2

theorem pointer_head (n : Nat) : (pointer n).head? ≠ some ' ' := by
  unfold pointer
  split <;> simp

/-- A PFN fits into the field. -/
theorem pointer_length {n : Nat} (small : n < 2 ^ 40) : (pointer n).length ≤ 16 := by
  unfold pointer
  split
  · decide
  · have digits : (Nat.toDigits 16 n).length ≤ 10 :=
      (Nat.length_toDigits_le_iff (by decide) (by decide)).mpr (by omega)
    simp only [List.length_cons]
    omega

/-- The blanks on the left end where the text begins. -/
theorem blanks_injective {j k : Nat} {s t : Text} (startS : s.head? ≠ some ' ')
    (startT : t.head? ≠ some ' ')
    (same : List.replicate j ' ' ++ s = List.replicate k ' ' ++ t) : s = t := by
  induction j generalizing k with
  | zero =>
      cases k with
      | zero => exact same
      | succ k =>
          refine absurd (congrArg List.head? same) ?_
          simpa [List.replicate_succ] using startS
  | succ j ih =>
      cases k with
      | zero =>
          refine absurd (congrArg List.head? same).symm ?_
          simpa [List.replicate_succ] using startT
      | succ k =>
          rw [List.replicate_succ, List.replicate_succ, List.cons_append, List.cons_append] at same
          exact ih (List.cons.inj same).2

theorem printPointer_length {n : Nat} (small : n < 2 ^ 40) : (printPointer n).length = 19 := by
  have fits := pointer_length small
  simp only [printPointer, padLeft, List.length_cons, List.length_append, List.length_replicate,
    List.length_nil]
  omega

theorem printPointer_apart {m n : Nat} (smallM : m < 2 ^ 40) (smallN : n < 2 ^ 40)
    (begins : printPointer m <+: printPointer n) : m = n := by
  have same := begins.eq_of_length
    ((printPointer_length smallM).trans (printPointer_length smallN).symm)
  have padded := List.append_cancel_right (List.cons.inj same).2
  exact pointer_injective (blanks_injective (pointer_head m) (pointer_head n) padded)

/-- The masks of the two architectures. -/
theorem pfnMask_getLsbD : ∀ width ∈ [40, 36], ∀ i : Fin 64,
    ((1#64 <<< width) - 1).getLsbD i.val = decide (i.val < width) := by
  decide +kernel

theorem getLsbD_pfn {width : Nat} (known : width ∈ [40, 36]) (entry : Word) (i : Nat) :
    ((entry >>> 12) &&& ((1#64 <<< width) - 1)).getLsbD i =
      (decide (i < width) && entry.getLsbD (12 + i)) := by
  rw [BitVec.getLsbD_and, BitVec.getLsbD_ushiftRight]
  by_cases inside : i < 64
  · rw [show ((1#64 <<< width) - 1).getLsbD i = decide (i < width) from
      pfnMask_getLsbD width known ⟨i, inside⟩, Bool.and_comm]
  · rw [BitVec.getLsbD_of_ge _ _ (Nat.le_of_not_lt inside),
      BitVec.getLsbD_of_ge entry _ (by omega), Bool.and_false, Bool.and_false]

theorem pfnValue_eq_iff {width : Nat} (known : width ∈ [40, 36]) (a b : Word) :
    pfnValue width a = pfnValue width b ↔
      ∀ i ∈ (List.range width).map (12 + ·), a.getLsbD i = b.getLsbD i := by
  rw [pfnValue, pfnValue, BitVec.toNat_inj]
  simp only [List.forall_mem_map, List.mem_range]
  constructor
  · intro same i inside
    have bit := congrArg (fun w => w.getLsbD i) same
    simpa only [getLsbD_pfn known, inside, decide_true, Bool.true_and] using bit
  · intro bits
    apply BitVec.eq_of_getLsbD_eq
    intro i _
    rw [getLsbD_pfn known, getLsbD_pfn known]
    by_cases inside : i < width
    · rw [bits i inside]
    · simp only [inside, decide_false, Bool.false_and]

theorem pfnValue_lt {width : Nat} (known : width ∈ [40, 36]) (entry : Word) :
    pfnValue width entry < 2 ^ 40 := by
  have below : pfnValue width entry ≤ ((1#64 <<< width) - 1).toNat := by
    rw [pfnValue, BitVec.toNat_and]
    exact Nat.and_le_right
  have mask : ∀ width ∈ [40, 36], ((1#64 <<< width) - 1).toNat < 2 ^ 40 := by decide +kernel
  exact lt_of_le_of_lt below (mask width known)

theorem shows_pfn {width : Nat} (known : width ∈ [40, 36]) :
    Shows (fun entry => (Column.pfn width).print entry) fun a b =>
      ∀ i ∈ (List.range width).map (12 + ·), a.getLsbD i = b.getLsbD i :=
  (shows_of_apart (pfnValue width) printPointer (pfnValue_lt known)
    fun _ smallM _ smallN => printPointer_apart smallM smallN).congr
      fun a b => pfnValue_eq_iff known a b

/-! ## Entries -/

def Column.positions : Column → List Nat
  | .bits _ positions => positions
  | .pfn width => (List.range width).map (12 + ·)

def Column.fits : Column → Bool
  | .bits _ positions => positions.length ≤ 5
  | .pfn width => [40, 36].contains width

theorem shows_column {column : Column} (fits : column.fits = true) :
    Shows (fun entry => column.print entry) fun a b =>
      ∀ i ∈ column.positions, a.getLsbD i = b.getLsbD i := by
  cases column with
  | bits format positions => exact shows_bits format (of_decide_eq_true fits)
  | pfn width => exact shows_pfn (List.contains_iff_mem.mp fits)

/-- What a reader can tell two entries apart by. -/
def SamePrinted (arch : Arch) (a b : Word) : Prop :=
  match arch with
  | .x86_64 => ∀ i, i < 52 ∨ i = 63 → a.getLsbD i = b.getLsbD i
  | .aarch64 => a = b

/-- The bits that have a column. -/
theorem mem_positions : ∀ arch, ∀ i : Fin 64,
    i.val ∈ (columns arch).flatMap Column.positions ↔ arch = .aarch64 ∨ i.val < 52 ∨ i.val = 63 := by
  intro arch
  cases arch <;> decide +kernel

theorem samePrinted_iff (arch : Arch) (a b : Word) :
    SamePrinted arch a b ↔
      ∀ column ∈ columns arch, ∀ i ∈ column.positions, a.getLsbD i = b.getLsbD i := by
  have shown : (∀ column ∈ columns arch, ∀ i ∈ column.positions, a.getLsbD i = b.getLsbD i) ↔
      ∀ i : Fin 64, (arch = .aarch64 ∨ i.val < 52 ∨ i.val = 63) →
        a.getLsbD i.val = b.getLsbD i.val := by
    constructor
    · intro every i listed
      obtain ⟨column, member, inside⟩ := List.mem_flatMap.mp ((mem_positions arch i).mpr listed)
      exact every column member i.val inside
    · intro every column member i inside
      by_cases small : i < 64
      · exact every ⟨i, small⟩
          ((mem_positions arch ⟨i, small⟩).mp (List.mem_flatMap.mpr ⟨column, member, inside⟩))
      · rw [BitVec.getLsbD_of_ge a _ (Nat.le_of_not_lt small),
          BitVec.getLsbD_of_ge b _ (Nat.le_of_not_lt small)]
  rw [shown]
  cases arch with
  | x86_64 =>
      constructor
      · intro same i listed
        exact same i.val (listed.resolve_left (by decide))
      · intro same i listed
        exact same ⟨i, by omega⟩ (.inr listed)
  | aarch64 =>
      constructor
      · rintro same i -
        rw [show a = b from same]
      · intro same
        exact BitVec.eq_of_getLsbD_eq fun i inside => same ⟨i, inside⟩ (.inl rfl)

/-- **The text of an entry** shows its printed bits. -/
theorem shows_entry (arch : Arch) : Shows (pteditPrintEntry arch) (SamePrinted arch) := by
  have fits : ∀ column ∈ columns arch, column.fits = true := by
    cases arch <;> decide
  have row := shows_flatMap (fun column (entry : Word) => Column.print entry column)
    (fun column a b => ∀ i ∈ column.positions, a.getLsbD i = b.getLsbD i) (columns arch)
    fun column member => shows_column (fits column member)
  have text : pteditPrintEntry arch = fun entry =>
      (border arch ++ (header arch ++ ['|'])) ++
        ((columns arch).flatMap (Column.print entry) ++ (['\n'] ++ border arch)) := by
    funext entry
    simp [pteditPrintEntry, pteditPrintEntryLine, List.range_succ]
  rw [text]
  refine ((shows_const _).append (row.append (shows_const _))).congr fun a b => ?_
  rw [true_and, and_true, samePrinted_iff]

/-! ## Records -/

theorem title_length (level : Level) : (title level).length = 15 := by
  cases level <;> decide

theorem title_injective {level other : Level} (same : title level = title other) :
    level = other := by
  cases level <;> cases other <;> first | rfl | exact absurd same (by decide)

/-- What is printed of some levels begins with the title of one of them. -/
theorem levels_begin (arch : Arch) (entry : Entry) (levels : List Level) :
    levels.flatMap (printLevel arch entry) = [] ∨
      ∃ level ∈ levels, title level <+: levels.flatMap (printLevel arch entry) := by
  induction levels with
  | nil => exact .inl rfl
  | cons level rest ih =>
      rw [List.flatMap_cons]
      by_cases valid : marks entry.valid level = true
      · refine .inr ⟨level, List.mem_cons_self, ?_⟩
        rw [printLevel, if_pos valid, List.append_assoc]
        exact List.prefix_append _ _
      · rw [printLevel, if_neg valid, List.nil_append]
        refine ih.imp id ?_
        rintro ⟨other, member, begins⟩
        exact ⟨other, List.mem_cons_of_mem _ member, begins⟩

section Records

variable {arch : Arch}

theorem title_not_printed {level : Level} (entry : Entry) {levels : List Level}
    (absent : level ∉ levels) (rest : Text) :
    title level ++ rest ≠ levels.flatMap (printLevel arch entry) := by
  intro printed
  rcases levels_begin arch entry levels with empty | ⟨other, member, begins⟩
  · rw [empty] at printed
    have lengths := congrArg List.length printed
    rw [List.length_append, title_length, List.length_nil] at lengths
    omega
  · rw [← printed] at begins
    have same : title other = title level := by
      have both := List.prefix_of_prefix_length_le begins (List.prefix_append _ rest)
        (by rw [title_length, title_length])
      exact both.eq_of_length (by rw [title_length, title_length])
    exact absent (title_injective same ▸ member)

/-- By induction on the levels that are still to be printed, each with a title of its own. -/
theorem levels_eq_iff (a b : Entry) {levels : List Level} (once : levels.Nodup) :
    levels.flatMap (printLevel arch a) = levels.flatMap (printLevel arch b) ↔
      ∀ level ∈ levels, marks a.valid level = marks b.valid level ∧
        (marks a.valid level = true → SamePrinted arch (a.word level) (b.word level)) := by
  induction levels with
  | nil => simp
  | cons level rest ih =>
      obtain ⟨absent, onceRest⟩ := List.nodup_cons.mp once
      have entries := (shows_const (title level)).append (shows_entry arch) (a.word level)
        (b.word level) (rest.flatMap (printLevel arch a)) (rest.flatMap (printLevel arch b))
      rw [List.forall_mem_cons, ← ih onceRest, List.flatMap_cons, List.flatMap_cons]
      simp only [printLevel] at entries ⊢
      cases validA : marks a.valid level <;> cases validB : marks b.valid level
      · simp
      · simp only [Bool.false_eq_true, if_false, if_true, List.nil_append, false_and, iff_false,
          List.append_assoc]
        exact fun printed => title_not_printed a absent _ printed.symm
      · simp only [Bool.false_eq_true, if_false, if_true, List.nil_append, false_and, iff_false,
          List.append_assoc, Bool.true_eq_false]
        exact title_not_printed b absent _
      · simp only [if_true, true_and, forall_const]
        rw [true_and] at entries
        exact entries

end Records

/-- **What a printed record tells**: which levels are valid, and the printed bits of each valid
entry.  Records that differ in nothing else print alike. -/
theorem print_entry_t_iff (arch : Arch) (a b : Entry) :
    pteditPrintEntryT arch a = pteditPrintEntryT arch b ↔
      ∀ level, marks a.valid level = marks b.valid level ∧
        (marks a.valid level = true → SamePrinted arch (a.word level) (b.word level)) := by
  have all : ∀ level, level ∈ [Level.pgd, .p4d, .pud, .pmd, .pte] := by
    intro level
    cases level <;> decide
  refine (levels_eq_iff a b (by decide)).trans ?_
  exact ⟨fun every level => every level (all level), fun every level _ => every level⟩

end PTEditor.Library.Printing
