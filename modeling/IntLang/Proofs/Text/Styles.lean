import IntLang.Console
import IntLang.Proofs.Text.Control
import IntLang.Proofs.Text.Pieces

/-!
# What styled texts show

A terminal shows a styled text without the sequences that switch styles. That leaves the text as it is
printed where no styles are shown, if the text holds no escape character itself, whatever its line breaks.

* `Style.strip` takes the sequences out, `Style.unstyled` takes them out of a text;
* `Style.Shows`: a styled text shows a bare one, whatever stands behind them;
* `Style.shows_paint`: a text in a style shows the text;
* `Console.Twin`: a console with styles shows what one without them holds; one lemma for each thing that
  is printed;
* **`Console.Twin.fail`**: a failure is shown alike, though its details are cut before they are styled.
-/

namespace IntLang

open Text (Lacks)

/-- Nothing in the text can be taken for the start of a sequence. -/
abbrev Text.Clear (s : String) : Prop := Lacks '\x1b' s

theorem Text.Printable.clear {s : String} (h : Printable s) : Clear s := isControl_escape.lacks h

namespace Style

/-! ## Sequences -/

/-- What may stand between the bracket of a sequence and its letter. -/
def isParameter (c : Char) : Bool := c.isDigit || c == ';'

/-- Length of the sequence that a text starts with, if it switches styles. -/
def sequenceLength? : List Char → Option Nat
  | '\x1b' :: '[' :: cs =>
    let parameters := cs.takeWhile isParameter
    if (cs.drop parameters.length).head? = some 'm' then some (parameters.length + 3) else none
  | _ => none

/-- The text without the sequences in it. The first `skip` characters belong to a sequence already
seen. -/
def strip (skip : Nat) : List Char → List Char
  | [] => []
  | c :: cs =>
    match skip with
    | skip + 1 => strip skip cs
    | 0 =>
      match sequenceLength? (c :: cs) with
      | some length => strip (length - 1) cs
      | none => c :: strip 0 cs

def unstyled (text : String) : String := String.ofList (strip 0 text.toList)

theorem strip_skip (front rest : List Char) : strip front.length (front ++ rest) = strip 0 rest := by
  induction front with
  | nil => rfl
  | cons c front ih => exact ih

/-! ## Showing -/

/-- A terminal shows the bare text in place of the styled one, whatever stands behind it. -/
def Shows (styled bare : List Char) : Prop := ∀ rest, strip 0 (styled ++ rest) = bare ++ strip 0 rest

variable {s : Style} {styled bare styled' bare' cs : List Char}

namespace Shows

theorem nil : Shows [] [] := fun _ => rfl

theorem append (h : Shows styled bare) (h' : Shows styled' bare') :
    Shows (styled ++ styled') (bare ++ bare') := by
  intro rest
  rw [List.append_assoc, h, h', List.append_assoc]

/-- A text that holds no escape character shows itself. -/
theorem of_notMem (h : '\x1b' ∉ cs) : Shows cs cs := by
  intro rest
  induction cs with
  | nil => rfl
  | cons c cs ih =>
    rw [List.mem_cons, not_or] at h
    have plain : sequenceLength? (c :: (cs ++ rest)) = none := by
      unfold sequenceLength?
      split
      · next he => exact absurd (List.cons.inj he).1.symm h.1
      · rfl
    rw [List.cons_append, strip, plain]
    exact congrArg (c :: ·) (ih h.2)

theorem concat {s s' t t' : String} (h : Shows s.toList t.toList) (h' : Shows s'.toList t'.toList) :
    Shows (s ++ s').toList (t ++ t').toList := by
  rw [String.toList_append, String.toList_append]
  exact h.append h'

theorem of_clear {text : String} (h : Text.Clear text) : Shows text.toList text.toList := .of_notMem h

theorem unstyled_eq {s t : String} (h : Shows s.toList t.toList) : unstyled s = t := by
  have whole := h []
  rw [List.append_nil] at whole
  rw [unstyled, whole]
  simp [strip]

/-- A sequence shows nothing. -/
theorem sequence {code : String} (h : code.toList.all isParameter) :
    Shows (Style.sequence code) [] := by
  intro rest
  have parts : Style.sequence code ++ rest = '\x1b' :: '[' :: (code.toList ++ 'm' :: rest) := by
    simp [Style.sequence]
  have parameters : (code.toList ++ 'm' :: rest).takeWhile isParameter = code.toList := by
    rw [List.takeWhile_append_of_pos (List.all_eq_true.mp h)]
    simp [isParameter]
  have length : sequenceLength? ('\x1b' :: '[' :: (code.toList ++ 'm' :: rest)) =
      some (code.toList.length + 3) := by
    simp [sequenceLength?, parameters]
  rw [parts, strip, length]
  have front : '[' :: (code.toList ++ 'm' :: rest) = ('[' :: code.toList ++ ['m']) ++ rest := by simp
  have size : code.toList.length + 3 - 1 = ('[' :: code.toList ++ ['m']).length := by simp
  change strip (code.toList.length + 3 - 1) _ = _
  rw [front, size, strip_skip]
  rfl

theorem on (s : Style) : Shows s.on [] := by
  cases s <;> exact sequence (by decide +kernel)

theorem off (s : Style) : Shows s.off [] := by
  cases s <;> exact sequence (by decide +kernel)

end Shows

/-! ## Painting -/

theorem resume_of_notMem (s : Style) (h : '\x1b' ∉ cs) : s.resume 0 cs = cs := by
  induction cs with
  | nil => rfl
  | cons c cs ih =>
    rw [List.mem_cons, not_or] at h
    have other : s.off.isPrefixOf (c :: cs) = false := by
      cases s <;> simp [Style.off, sequence, List.isPrefixOf, h.1]
    rw [resume, other, if_neg Bool.false_ne_true, ih h.2]

theorem shows_lift (s : Style) (h : '\x1b' ∉ cs) : Shows (s.lift cs) cs := by
  induction cs using lift.induct with
  | case1 => exact .nil
  | case2 cs ih =>
    have rest := ih fun hm => h (by simp [hm])
    have feed : Shows ['\r', '\n'] ['\r', '\n'] := .of_notMem (by decide +kernel)
    have parts := (((Shows.off s).append feed).append (.on s)).append rest
    rw [lift]
    simpa using parts
  | case3 cs ih =>
    have rest := ih fun hm => h (by simp [hm])
    have feed : Shows ['\n'] ['\n'] := .of_notMem (by decide +kernel)
    have parts := (((Shows.off s).append feed).append (.on s)).append rest
    rw [lift]
    simpa using parts
  | case4 c cs hr hn ih =>
    rw [List.mem_cons, not_or] at h
    rw [lift]
    · exact (Shows.of_notMem fun hm => h.1 (List.mem_singleton.mp hm)).append (ih h.2)
    · exact hr
    · exact hn

/-- **A text in a style shows the text.** -/
theorem shows_paint (s : Style) {text : String} (h : Text.Clear text) :
    Shows (s.paint true text).toList text.toList := by
  unfold paint
  split
  · rw [resume_of_notMem s h, String.toList_ofList]
    simpa using ((Shows.on s).append (shows_lift s h)).append (.off s)
  · exact .of_notMem h

end Style

/-! ## Consoles -/

namespace Console

open Style (Shows)

theorem paint_of_color {c : Console} (h : c.color = false) (s : Style) (text : String) :
    c.paint s text = text := by
  rw [paint, h, Style.paint, if_neg]
  exact fun h => Bool.false_ne_true h.1

/-- The lines of a failure's details hold nothing but parts of them. -/
theorem clear_detailLines {details : String} (h : Text.Clear details) :
    ∀ line ∈ detailLines details, Text.Clear line := by
  have kept : Text.Clear (Text.trimEnd details) := by
    refine Text.lacks_ofList fun hm => h ?_
    exact List.mem_reverse.mp ((List.dropWhile_suffix _).subset (List.mem_reverse.mp hm))
  unfold detailLines
  split
  · exact List.forall_mem_nil _
  · intro line hl
    obtain ⟨run, hr, rfl⟩ := List.mem_map.mp (List.mem_of_mem_take hl)
    exact Text.lacks_ofList fun hm => kept (Text.subset_of_mem_runs hr hm)

/-- A console with styles and one without, which show the same on both streams. -/
structure Twin (styled bare : Console) : Prop where
  styled_color : styled.color = true
  bare_color : bare.color = false
  out : Shows styled.out.toList bare.out.toList
  err : Shows styled.err.toList bare.err.toList

theorem twin_empty : Twin (empty true) (empty false) := ⟨rfl, rfl, .nil, .nil⟩

namespace Twin

variable {styled bare : Console} {text text' : String}

theorem write (h : Twin styled bare) (ht : Shows text.toList text'.toList) :
    Twin (styled.write text) (bare.write text') :=
  ⟨h.styled_color, h.bare_color, h.out.concat ht, h.err⟩

theorem warn (h : Twin styled bare) (ht : Shows text.toList text'.toList) :
    Twin (styled.warn text) (bare.warn text') :=
  ⟨h.styled_color, h.bare_color, h.out, (h.err.concat ht).concat (.of_clear (by decide +kernel))⟩

theorem line (h : Twin styled bare) (ht : Shows text.toList text'.toList) :
    Twin (styled.line text) (bare.line text') :=
  h.write (ht.concat (.of_clear (by decide +kernel)))

theorem paint (h : Twin styled bare) (s : Style) (ht : Text.Clear text) :
    Shows (styled.paint s text).toList (bare.paint s text).toList := by
  rw [paint_of_color h.bare_color, Console.paint, h.styled_color]
  exact Style.shows_paint s ht

theorem ok (h : Twin styled bare) {what path : String} (hw : Text.Clear what) (hp : Text.Clear path) :
    Twin (styled.ok what path) (bare.ok what path) := by
  have mark : Text.Clear "✓" := by decide +kernel
  have arrow : Text.Clear "→" := by decide +kernel
  have blank := Shows.of_clear (show Text.Clear " " by decide +kernel)
  have front := ((h.paint .green mark).concat blank).concat (.of_clear hw)
  refine h.line (front.concat ?_)
  split
  · exact .nil
  · exact ((blank.concat (h.paint .dim arrow)).concat blank).concat (h.paint .dim hp)

theorem heading (h : Twin styled bare) {title : String} (ht : Text.Clear title) :
    Twin (styled.heading title) (bare.heading title) :=
  have name : Text.Clear ("--- " ++ title ++ " ---") :=
    ((show Text.Clear "--- " by decide +kernel).append ht).append (by decide +kernel)
  h.line ((Shows.of_clear (by decide +kernel)).concat (h.paint .bold name))

theorem rule (h : Twin styled bare) : Twin styled.rule bare.rule :=
  h.line (.of_clear (by decide +kernel))

theorem details (h : Twin styled bare) {lines : List String} (hl : ∀ line ∈ lines, Text.Clear line) :
    Twin (lines.foldl (fun c line => c.warn (c.paint .dim ("  " ++ line))) styled)
      (lines.foldl (fun c line => c.warn (c.paint .dim ("  " ++ line))) bare) := by
  induction lines generalizing styled bare with
  | nil => exact h
  | cons line lines ih =>
    obtain ⟨hl, hs⟩ := List.forall_mem_cons.mp hl
    have clear : Text.Clear ("  " ++ line) := (show Text.Clear "  " by decide +kernel).append hl
    exact ih (h.warn (h.paint .dim clear)) hs

/-- **A failure is shown alike.** Its details are cut into lines before a style is put on them, and no
line of them holds an escape character. -/
theorem fail (h : Twin styled bare) {message details : String} (hm : Text.Clear message)
    (hd : Text.Clear details) : Twin (styled.fail message details) (bare.fail message details) := by
  have mark : Text.Clear "✗" := by decide +kernel
  have blank : Text.Clear " " := by decide +kernel
  have first := h.warn (((h.paint .red mark).concat (.of_clear blank)).concat (.of_clear hm))
  exact first.details (clear_detailLines hd)

end Twin

end Console

end IntLang
