import IntLang.Proofs.Scanning.Scans

/-!
# Lexemes in front of a text

How far a lexeme reaches depends on what follows it. A symbol of one unit is followed by a blank
or cannot be the first half of a pair; a name or a number is followed by no part of a word; a string
ends with its quote, whatever follows.

* `IsIdentifier`, `IsLiteral`: the texts that are names and strings;
* `Scans.single`, `Scans.operator`, `Scans.identifier`, `Scans.digits`, `Scans.literal`: each of them
  in front of a text.
-/

namespace IntLang

open CodeUnit

/-! ## Symbols -/

def BinaryOp.kind : BinaryOp → TokenKind
  | add => .plus
  | sub => .minus
  | mul => .star
  | div => .slash
  | eq => .eq
  | ne => .ne
  | lt => .lt
  | gt => .gt
  | le => .le
  | ge => .ge

@[simp] theorem BinaryOp.binary?_kind (op : BinaryOp) : op.kind.binary? = some op := by
  cases op <;> rfl

variable {us vs : UnitText} {ws : List Word} {u v : CodeUnit} {kind : TokenKind}

/-- The unit is no blank and starts neither a string nor a number nor a word. -/
def CodeUnit.startsSymbol (u : CodeUnit) : Bool :=
  u != unit '"' && !isDigit u && !isWordStart u && !isTrivial u

theorem Lexeme.read_symbol (hu : u.startsSymbol = true) (vs : UnitText) :
    read u vs = readSymbol u vs := by
  simp only [startsSymbol, Bool.and_eq_true, bne_iff_ne, Bool.not_eq_true'] at hu
  obtain ⟨⟨⟨hq, hd⟩, hw⟩, -⟩ := hu
  rw [read, if_neg hq, hd, hw]
  rfl

theorem triviaLength_symbol (hu : u.startsSymbol = true)
    (hc : ¬ (u = unit '/' ∧ vs.head? = some (unit '/'))) : triviaLength false (u :: vs) = 0 := by
  simp only [startsSymbol, Bool.and_eq_true, Bool.not_eq_true'] at hu
  rw [triviaLength, hu.2, if_neg Bool.false_ne_true, if_neg Bool.false_ne_true, if_neg hc]

/-- What follows starts with a blank, if anything follows. -/
def Blanked (text : UnitText) : Prop := ∀ u ∈ text.head?, isTrivial u = true

theorem Blanked.notMem (h : Blanked vs) (hu : isTrivial u = false) : u ∉ vs.head? :=
  fun hm => by simp [h u hm] at hu

theorem pairKind?_of_ne (u : CodeUnit) (hv : v ≠ unit '=') : pairKind? u v = none := by
  rw [pairKind?, if_pos hv]

theorem pairKind?_of_notMem (hu : u ∉ [unit '=', unit '!', unit '<', unit '>']) (v : CodeUnit) :
    pairKind? u v = none := by
  simp only [List.mem_cons, List.not_mem_nil, or_false, not_or] at hu
  obtain ⟨he, hn, hl, hg⟩ := hu
  rw [pairKind?, if_neg he, if_neg hn, if_neg hl, if_neg hg, ite_self]

namespace Scans

/-- A symbol that no unit behind it can go on with. -/
theorem symbol (hu : u.startsSymbol = true) (hk : singleKind? u = some kind)
    (hp : u ∉ [unit '=', unit '!', unit '<', unit '>', unit '/']) (h : Scans vs ws) :
    Scans (u :: vs) (⟨kind, [u]⟩ :: ws) := by
  have hpair : vs.head?.bind (pairKind? u) = none := by
    rw [Option.bind_eq_none_iff]
    intro v _
    exact pairKind?_of_notMem (fun hm => hp (List.mem_append_left [unit '/'] hm)) v
  refine token [] (triviaLength_symbol hu ?_) ?_ h
  · rintro ⟨rfl, -⟩
    exact hp (by decide)
  · rw [List.nil_append, Lexeme.read_symbol hu, Lexeme.readSymbol, hpair, hk]
    rfl

/-- A symbol with a blank behind it, or at the end. -/
theorem single (hu : u.startsSymbol = true) (hk : singleKind? u = some kind) (hv : Blanked vs)
    (h : Scans vs ws) : Scans (u :: vs) (⟨kind, [u]⟩ :: ws) := by
  have hpair : vs.head?.bind (pairKind? u) = none := by
    rw [Option.bind_eq_none_iff]
    rintro v hm
    exact pairKind?_of_ne u fun he => hv.notMem (by decide) (he ▸ hm)
  refine token [] (triviaLength_symbol hu fun hc => hv.notMem (by decide) hc.2) ?_ h
  rw [List.nil_append, Lexeme.read_symbol hu, Lexeme.readSymbol, hpair, hk]
  rfl

/-- A symbol with a space behind it. -/
theorem spaced (hu : u.startsSymbol = true) (hk : singleKind? u = some kind) (h : Scans vs ws) :
    Scans (u :: unit ' ' :: vs) (⟨kind, [u]⟩ :: ws) :=
  (h.blank rfl).single hu hk (by rintro _ ⟨⟩; rfl)

theorem pair (hu : u.startsSymbol = true) (hk : pairKind? u v = some kind) (h : Scans vs ws) :
    Scans (u :: v :: vs) (⟨kind, [u, v]⟩ :: ws) := by
  have hne : u ≠ unit '/' := by
    rintro rfl
    rw [pairKind?_of_notMem (by decide)] at hk
    cases hk
  refine token [v] (triviaLength_symbol hu fun hc => hne hc.1) ?_ h
  rw [Lexeme.read_symbol hu, Lexeme.readSymbol, List.singleton_append, List.head?_cons,
    Option.bind_some, hk]
  rfl

end Scans

/-- An operator with a blank behind it. -/
theorem Scans.operator (op : BinaryOp) (h : Scans vs ws) :
    Scans (Text.units op.text ++ unit ' ' :: vs) (⟨op.kind, Text.units op.text⟩ :: ws) := by
  cases op with
  | add => exact h.spaced (u := unit '+') rfl rfl
  | sub => exact h.spaced (u := unit '-') rfl rfl
  | mul => exact h.spaced (u := unit '*') rfl rfl
  | div => exact h.spaced (u := unit '/') rfl rfl
  | lt => exact h.spaced (u := unit '<') rfl rfl
  | gt => exact h.spaced (u := unit '>') rfl rfl
  | eq => exact (h.blank rfl).pair (u := unit '=') (v := unit '=') rfl rfl
  | ne => exact (h.blank rfl).pair (u := unit '!') (v := unit '=') rfl rfl
  | le => exact (h.blank rfl).pair (u := unit '<') (v := unit '=') rfl rfl
  | ge => exact (h.blank rfl).pair (u := unit '>') (v := unit '=') rfl rfl

/-! ## Names -/

/-- What follows does not go on with a word. -/
def Apart (text : UnitText) : Prop := ∀ u ∈ text.head?, isWordPart u = false

theorem apart_cons (hu : isWordPart u = false) : Apart (u :: us) := by
  rintro _ ⟨⟩
  exact hu

theorem Apart.takeWhile (h : Apart vs) (hu : ∀ u ∈ us, isWordPart u = true) :
    (us ++ vs).takeWhile isWordPart = us := by
  rw [List.takeWhile_append_of_pos hu]
  cases vs with
  | nil => simp
  | cons v vs => simp [h v rfl]

theorem isDigit_iff : isDigit u = true ↔ 48 ≤ u.toNat ∧ u.toNat ≤ 57 := by
  simp [isDigit, UInt16.le_iff_toNat_le]

theorem isWordStart_iff : isWordStart u = true ↔
    97 ≤ u.toNat ∧ u.toNat ≤ 122 ∨ 65 ≤ u.toNat ∧ u.toNat ≤ 90 ∨ u.toNat = 95 := by
  simp [isWordStart, UInt16.le_iff_toNat_le, ← UInt16.toNat_inj, or_assoc]

theorem isDigit_eq_false (hu : isWordStart u = true) : isDigit u = false := by
  rw [isWordStart_iff] at hu
  rw [Bool.eq_false_iff, ne_eq, isDigit_iff]
  omega

theorem toNat_of_isWordPart (hu : isWordPart u = true) : 48 ≤ u.toNat ∧ u.toNat ≤ 122 := by
  rw [isWordPart, Bool.or_eq_true, isWordStart_iff, isDigit_iff] at hu
  omega

theorem ne_unit_of_isWordPart {c : Char} (hu : isWordPart u = true) (hc : c.toNat < 48) :
    u ≠ unit c := by
  rintro rfl
  have h := (toNat_of_isWordPart hu).1
  rw [unit, Text.toNat_toUInt16 (by omega)] at h
  omega

theorem triviaLength_wordPart (hu : isWordPart u = true) : triviaLength false (u :: us) = 0 := by
  have ht : isTrivial u = false := by
    simp only [isTrivial, Bool.or_eq_false_iff, beq_eq_false_iff_ne]
    refine ⟨⟨⟨?_, ?_⟩, ?_⟩, ?_⟩ <;> exact ne_unit_of_isWordPart hu (by decide)
  have hc : u ≠ unit '/' := ne_unit_of_isWordPart hu (by decide)
  rw [triviaLength, ht, if_neg Bool.false_ne_true, if_neg Bool.false_ne_true,
    if_neg fun h => hc h.1]

theorem Scans.run (hu : isWordStart u = true) (hus : ∀ v ∈ us, isWordPart v = true) (hv : Apart vs)
    (h : Scans vs ws) : Scans (u :: us ++ vs) (⟨wordKind (u :: us), u :: us⟩ :: ws) := by
  have hp : isWordPart u = true := by rw [isWordPart, hu, Bool.true_or]
  have hq : u ≠ unit '"' := ne_unit_of_isWordPart hp (by decide)
  refine token us (triviaLength_wordPart hp) ?_ h
  rw [Lexeme.read, if_neg hq, isDigit_eq_false hu, hu, if_neg Bool.false_ne_true, if_pos rfl,
    Lexeme.readWord, ← List.cons_append, hv.takeWhile (by simpa [hp] using hus)]
  rfl

/-- The words of the language, which are no names. -/
theorem Scans.keyword (name : String) (kind : TokenKind)
    (hk : (name, kind) ∈
      [("int", TokenKind.int), ("print", .print), ("if", .ifWord), ("else", .elseWord)])
    (hv : Apart vs) (h : Scans vs ws) :
    Scans (Text.units name ++ vs) (⟨kind, Text.units name⟩ :: ws) := by
  simp only [List.mem_cons, List.not_mem_nil, or_false, Prod.mk.injEq] at hk
  rcases hk with ⟨rfl, rfl⟩ | ⟨rfl, rfl⟩ | ⟨rfl, rfl⟩ | ⟨rfl, rfl⟩
  all_goals exact h.run rfl (List.all_eq_true.mp rfl) hv

/-- A word that is no keyword. -/
def IsIdentifier (name : UnitText) : Prop :=
  (∃ u us, name = u :: us ∧ isWordStart u = true ∧ ∀ v ∈ us, isWordPart v = true) ∧
    name ∉ ["int", "print", "if", "else"].map Text.units

/-- Names hold parts of words only. -/
theorem notMem_of_isIdentifier {name : UnitText} {c : Char} (h : IsIdentifier name)
    (hc : c.toNat < 48) : unit c ∉ name := by
  intro hm
  obtain ⟨⟨u, us, rfl, hu, hus⟩, -⟩ := h
  have hp : ∀ v ∈ u :: us, isWordPart v = true :=
    List.forall_mem_cons.mpr ⟨by rw [isWordPart, hu, Bool.true_or], hus⟩
  exact ne_unit_of_isWordPart (hp _ hm) hc rfl

theorem wordKind_of_isIdentifier {name : UnitText} (h : IsIdentifier name) :
    wordKind name = .ident := by
  have hne (s : String) (hs : s ∈ ["int", "print", "if", "else"]) : name ≠ Text.units s :=
    fun he => h.2 (he ▸ List.mem_map_of_mem hs)
  rw [wordKind, if_neg (hne _ (by simp)), if_neg (hne _ (by simp)), if_neg (hne _ (by simp)),
    if_neg (hne _ (by simp))]

theorem Scans.identifier {name : UnitText} (hn : IsIdentifier name) (hv : Apart vs) (h : Scans vs ws) :
    Scans (name ++ vs) (⟨.ident, name⟩ :: ws) := by
  have hk := wordKind_of_isIdentifier hn
  obtain ⟨⟨u, us, rfl, hu, hus⟩, -⟩ := hn
  rw [← hk]
  exact h.run hu hus hv

/-! ## Numbers -/

namespace Text

theorem units_ofList {cs : List Char} (h : ∀ c ∈ cs, c.toNat < 0x10000) :
    units (String.ofList cs) = cs.map unit := by
  rw [units, String.toList_ofList]
  induction cs with
  | nil => rfl
  | cons c cs ih =>
    rw [List.flatMap_cons, ih fun d hd => h d (List.mem_cons_of_mem _ hd), charUnits,
      if_pos (h c List.mem_cons_self)]
    rfl

theorem foldl_map_unit {cs : List Char} (h : ∀ c ∈ cs, c.toNat < 0x10000) (n : Nat) :
    (cs.map unit).foldl (fun n u => 10 * n + (u.toNat - 48)) n = Nat.ofDigitChars 10 cs n := by
  induction cs generalizing n with
  | nil => rw [Nat.ofDigitChars_nil, List.map_nil, List.foldl_nil]
  | cons c cs ih =>
    rw [List.map_cons, List.foldl_cons, ih fun d hd => h d (List.mem_cons_of_mem _ hd),
      Nat.ofDigitChars_cons, unit, toNat_toUInt16 (h c List.mem_cons_self)]
    rfl

theorem toNat_of_mem_toDigits {n : Nat} {c : Char} (hc : c ∈ Nat.toDigits 10 n) :
    48 ≤ c.toNat ∧ c.toNat ≤ 57 := by
  have := Nat.isDigit_of_mem_toDigits (by decide) (by decide) hc
  simpa [Char.isDigit, UInt32.le_iff_toNat_le] using this

theorem lt_of_mem_toDigits {n : Nat} {c : Char} (hc : c ∈ Nat.toDigits 10 n) : c.toNat < 0x10000 := by
  have := (toNat_of_mem_toDigits hc).2
  omega

theorem units_toString_eq (n : Nat) : units (toString n) = (Nat.toDigits 10 n).map unit := by
  rw [Nat.toString_eq_ofList_toDigits, units_ofList fun _ => lt_of_mem_toDigits]

/-- A number is written in digits that denote it. -/
theorem units_toString (n : Nat) : units (toString n) ≠ [] ∧
    (∀ u ∈ units (toString n), isDigit u = true) ∧ numeral (units (toString n)) = n := by
  rw [units_toString_eq]
  refine ⟨by simp, ?_, ?_⟩
  · intro u hu
    obtain ⟨c, hc, rfl⟩ := List.mem_map.mp hu
    rw [isDigit_iff, unit, toNat_toUInt16 (lt_of_mem_toDigits hc)]
    exact toNat_of_mem_toDigits hc
  · rw [numeral, foldl_map_unit fun _ => lt_of_mem_toDigits]
    exact Nat.ofDigitChars_toDigits (by decide) (by decide)

theorem notMem_units_toString {u : CodeUnit} (hu : isDigit u = false) (n : Nat) :
    u ∉ units (toString n) := by
  intro hm
  rw [(units_toString n).2.1 u hm] at hu
  cases hu

theorem notMem_units_toString_int {u : CodeUnit} (hu : isDigit u = false) (hm : u ≠ unit '-') (n : Int) :
    u ∉ units (toString n) := by
  cases n with
  | ofNat n => exact notMem_units_toString hu n
  | negSucc n =>
    have written : units (toString (Int.negSucc n)) = unit '-' :: units (toString (n + 1)) :=
      units_append "-" _
    rw [written]
    exact List.not_mem_cons_of_ne_of_not_mem hm (notMem_units_toString hu _)

end Text

theorem Apart.takeWhile_isDigit (h : Apart vs) (hu : ∀ u ∈ us, isDigit u = true) :
    (us ++ vs).takeWhile isDigit = us ∧ (us ++ vs).dropWhile isDigit = vs := by
  have hv : ∀ v ∈ vs.head?, isDigit v = false := by
    intro v hv
    have := h v hv
    rw [isWordPart, Bool.or_eq_false_iff] at this
    exact this.2
  rw [List.takeWhile_append_of_pos hu, List.dropWhile_append_of_pos hu]
  cases vs with
  | nil => simp
  | cons v vs => simp [hv v rfl]

/-- A run of digits is read as a whole; it is at fault if it denotes too much. -/
theorem Lexeme.read_digits (hd : ∀ v ∈ u :: us, isDigit v = true) (hv : Apart vs) :
    read u (us ++ vs) = ⟨.number, (u :: us).length,
      if Text.numeral (u :: us) > maxNumber then some .numberOutOfRange else none⟩ := by
  have hu := hd u List.mem_cons_self
  have hp : isWordPart u = true := by rw [isWordPart, hu, Bool.or_true]
  have hq : u ≠ unit '"' := ne_unit_of_isWordPart hp (by decide)
  obtain ⟨ht, hdrop⟩ := hv.takeWhile_isDigit hd
  have hw : ¬ (vs.head?.any isWordStart) = true := by
    rw [Option.any_eq_true]
    rintro ⟨v, hv', hs⟩
    have := hv v hv'
    rw [isWordPart, hs] at this
    cases this
  rw [read, if_neg hq, if_pos hu, readNumber, ← List.cons_append, hdrop, if_neg hw, ht]

theorem Scans.digits (hne : us ≠ []) (hd : ∀ u ∈ us, isDigit u = true)
    (hle : Text.numeral us ≤ maxNumber) (hv : Apart vs) (h : Scans vs ws) :
    Scans (us ++ vs) (⟨.number, us⟩ :: ws) := by
  obtain ⟨u, us, rfl⟩ := List.exists_cons_of_ne_nil hne
  have hp : isWordPart u = true := by rw [isWordPart, hd u List.mem_cons_self, Bool.or_true]
  refine token us (triviaLength_wordPart hp) ?_ h
  rw [Lexeme.read_digits hd hv, if_neg (Nat.not_lt.mpr hle), List.length_cons]

theorem Scans.number {n : Nat} (hn : n ≤ maxNumber) (hv : Apart vs) (h : Scans vs ws) :
    Scans (Text.units (toString n) ++ vs) (⟨.number, Text.units (toString n)⟩ :: ws) := by
  obtain ⟨hne, hd, hval⟩ := Text.units_toString n
  exact h.digits hne hd (hval.symm ▸ hn) hv

/-- Digits are read as the number they denote. -/
theorem Parse.numberNode_digits (hne : us ≠ []) (hd : ∀ u ∈ us, isDigit u = true) :
    numberNode us = .number (Text.numeral us) := by
  obtain ⟨u, us, rfl⟩ := List.exists_cons_of_ne_nil hne
  have hu := isDigit_iff.mp (hd u List.mem_cons_self)
  have hp : isWordPart u = true := by rw [isWordPart, hd u List.mem_cons_self, Bool.or_true]
  have hb : ∀ n < 58, 48 ≤ n → Text.isBlank (Char.ofNat n) = false := by decide
  have ht : (u :: us).takeWhile isDigit = u :: us := by
    have ha : Apart [] := by rintro _ ⟨⟩
    simpa using (ha.takeWhile_isDigit hd).1
  have hm : u ≠ unit '-' := ne_unit_of_isWordPart hp (by decide)
  have hs : u ≠ unit '+' := ne_unit_of_isWordPart hp (by decide)
  have hl : Text.leadingInt? (u :: us) = some (Text.numeral (u :: us) : Int) := by
    simp only [Text.leadingInt?, List.dropWhile_cons, hb _ (by omega) hu.1, Bool.false_eq_true,
      if_false, if_neg hm, if_neg hs, Text.leadingNat?, ht]
    rfl
  rw [numberNode, hl]

theorem Parse.numberNode_toString (n : Nat) :
    numberNode (Text.units (toString n)) = .number n := by
  obtain ⟨hne, hd, hval⟩ := Text.units_toString n
  rw [numberNode_digits hne hd, hval]

/-- A number that is written out is read again, with its sign. -/
theorem Parse.numberNode_toString_int (n : Int) :
    numberNode (Text.units (toString n)) = .number n := by
  cases n with
  | ofNat n => exact numberNode_toString n
  | negSucc n =>
    obtain ⟨hne, hd, hval⟩ := Text.units_toString (n + 1)
    have hs : Text.units (toString (Int.negSucc n)) = unit '-' :: Text.units (toString (n + 1)) :=
      Text.units_append "-" _
    have hb : Text.isBlank (Char.ofNat (unit '-').toNat) = false := by decide
    have ht : (Text.units (toString (n + 1))).takeWhile isDigit = Text.units (toString (n + 1)) := by
      have ha : Apart [] := by rintro _ ⟨⟩
      simpa using (ha.takeWhile_isDigit hd).1
    have hl : Text.leadingNat? (Text.units (toString (n + 1))) = some (n + 1) := by
      unfold Text.leadingNat?
      rw [ht]
      split
      · next h => exact absurd h hne
      · rw [hval]
    rw [numberNode, hs, Text.leadingInt?, List.dropWhile_cons_of_neg (by rw [hb]; exact nofun)]
    simp only [if_true, hl, Option.map_some]
    rfl

/-! ## Strings -/

/-- A whole string is what the scanner reads as one. -/
def IsLiteral (text : UnitText) : Prop := Text.words text = .ok [⟨.string, text⟩]

/-- A string ends with its closing quote, whatever follows, and holds no line feed. -/
theorem stringBody_append {escaped : Bool} (vs : UnitText)
    (h : stringBody escaped us = (us.length, true)) :
    stringBody escaped (us ++ vs) = (us.length, true) ∧ unit '\n' ∉ us := by
  induction us generalizing escaped with
  | nil => cases h
  | cons u us ih =>
    rw [List.cons_append, stringBody]
    rw [stringBody] at h
    split at h
    · cases h
    · next hn =>
      rw [if_neg hn]
      split at h
      · next hq =>
        have hus : us = [] := List.length_eq_zero_iff.mp (by simpa using (Prod.mk.inj h).1.symm)
        subst hus
        rw [if_pos hq]
        exact ⟨rfl, by simpa using fun he => hn he.symm⟩
      · next hq =>
        obtain ⟨hl, hc⟩ := Prod.mk.inj h
        obtain ⟨ha, hm⟩ := ih (Prod.ext (Nat.succ.inj hl) hc)
        rw [if_neg hq, ha]
        exact ⟨rfl, by simpa using ⟨fun he => hn he.symm, hm⟩⟩

theorem stringBody_length_le (escaped : Bool) (us : UnitText) :
    (stringBody escaped us).1 ≤ us.length := by
  induction us generalizing escaped with
  | nil => exact Nat.le_refl 0
  | cons u us ih =>
    rw [stringBody, List.length_cons]
    split
    · exact Nat.zero_le _
    · split
      · exact Nat.succ_le_succ (Nat.zero_le _)
      · exact Nat.succ_le_succ (ih _)

theorem wordKind_mem (word : UnitText) :
    wordKind word ∈ [TokenKind.int, .print, .ifWord, .elseWord, .ident] := by
  unfold wordKind
  repeat' split
  all_goals decide

theorem ite_ne_some {p : Prop} [Decidable p] {a b : Option TokenKind} (ha : a ≠ some kind)
    (hb : b ≠ some kind) : (if p then a else b) ≠ some kind := by
  split
  · exact ha
  · exact hb

theorem pairKind?_ne (hk : kind ∈ [TokenKind.ident, .number, .string, .eof]) :
    pairKind? u v ≠ some kind := by
  simp only [List.mem_cons, List.not_mem_nil, or_false] at hk
  unfold pairKind?
  rcases hk with rfl | rfl | rfl | rfl <;> (repeat' apply ite_ne_some) <;> simp

theorem singleKind?_ne (hk : kind ∈ [TokenKind.ident, .number, .string, .eof]) :
    singleKind? u ≠ some kind := by
  simp only [List.mem_cons, List.not_mem_nil, or_false] at hk
  unfold singleKind?
  rcases hk with rfl | rfl | rfl | rfl <;> (repeat' apply ite_ne_some) <;> simp

/-- A symbol is no name, no number, no string and not the end of input. -/
theorem Lexeme.kind_readSymbol (u : CodeUnit) (rest : UnitText) :
    (readSymbol u rest).kind ∉ [TokenKind.ident, .number, .string, .eof] := by
  unfold readSymbol
  split
  · next hk =>
    obtain ⟨v, -, hk⟩ := Option.bind_eq_some_iff.mp hk
    exact fun hm => pairKind?_ne hm hk
  · split
    · next hk => exact fun hm => singleKind?_ne hm hk
    · decide

/-- No lexeme is the end of input. -/
theorem Lexeme.kind_read (u : CodeUnit) (rest : UnitText) : (read u rest).kind ≠ .eof := by
  unfold read
  split
  · rw [readString]
    simp
  split
  · unfold readNumber
    dsimp only
    split <;> simp
  split
  · intro h
    have := wordKind_mem ((u :: rest).takeWhile isWordPart)
    rw [show wordKind _ = .eof from h] at this
    exact absurd this (by decide)
  · intro h
    refine absurd ?_ (kind_readSymbol u rest)
    simp [h]

theorem Lexeme.read_string {n : Nat} (h : read u us = ⟨.string, n, none⟩) :
    u = unit '"' ∧ ∃ m, n = m + 1 ∧ stringBody false us = (m, true) := by
  unfold read at h
  split at h
  · next hq =>
    rw [readString] at h
    rcases hb : stringBody false us with ⟨m, _ | _⟩
    · simp [hb] at h
    · simp only [hb, if_true] at h
      cases h
      exact ⟨hq, m, rfl, rfl⟩
  split at h
  · unfold readNumber at h
    split at h <;> cases h
  split at h
  · have := wordKind_mem ((u :: us).takeWhile isWordPart)
    rw [show wordKind _ = .string from congrArg Lexeme.kind h] at this
    exact absurd this (by decide)
  · refine absurd ?_ (kind_readSymbol u us)
    simp [h]

theorem Scans.string (hb : stringBody false us = (us.length, true)) (h : Scans vs ws) :
    Scans (unit '"' :: us ++ vs) (⟨.string, unit '"' :: us⟩ :: ws) := by
  refine token us rfl ?_ h
  rw [Lexeme.read, if_pos rfl, Lexeme.readString, (stringBody_append vs hb).1]
  rfl

/-- A whole string is a quote and a body that the closing quote ends. -/
theorem isLiteral_iff {text : UnitText} : IsLiteral text ↔
    ∃ body, text = unit '"' :: body ∧ stringBody false body = (body.length, true) := by
  constructor
  · intro h
    obtain ⟨ts, last, hp, hw⟩ := Text.words_eq_ok.mp h
    obtain ⟨t, rfl, ht⟩ := List.map_eq_singleton_iff.mp hw
    obtain ⟨hk, hv⟩ := Word.mk.inj ht
    obtain ⟨u, us, n, hc, hl, hval, -⟩ := Cursor.exists_read_of_pulls hp
    rw [hk] at hl
    obtain ⟨rfl, m, rfl, hb⟩ := Lexeme.read_string hl
    rw [hv] at hval
    have hle : (unit '"' :: us).length ≤ text.length := by
      rw [← hc]
      exact Cursor.skip_length_le _ _
    have hm := stringBody_length_le false us
    -- the token is the whole text, so nothing stands in front of it and nothing behind
    have hlen := congrArg List.length hval
    rw [List.length_take, List.length_cons] at hlen
    rw [List.length_cons] at hle
    rw [hb] at hm
    obtain rfl : m = us.length := by omega
    exact ⟨us, by rw [hval, ← List.length_cons, List.take_length], hb⟩
  · rintro ⟨body, rfl, hb⟩
    have h := Scans.string hb .nil
    rw [List.append_nil] at h
    exact h.words

theorem notMem_of_isLiteral {text : UnitText} (h : IsLiteral text) : unit '\n' ∉ text := by
  obtain ⟨body, rfl, hb⟩ := isLiteral_iff.mp h
  exact List.not_mem_cons_of_ne_of_not_mem (by decide) (stringBody_append [] hb).2

theorem Scans.literal {text : UnitText} (ht : IsLiteral text) (h : Scans vs ws) :
    Scans (text ++ vs) (⟨.string, text⟩ :: ws) := by
  obtain ⟨body, rfl, hb⟩ := isLiteral_iff.mp ht
  exact h.string hb

end IntLang
