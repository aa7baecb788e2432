import XCore.Lua.Quote

/-!
# Coloured text (`base/repl.lua`)

`colorize` puts a text between two escape sequences of the terminal, and `strip` takes them out again, so that the
length of a text is the one that is seen (`strip_colorize`). Characters of strings are coloured one by one where they
are written as escapes.
-/

namespace XCore.Repl

open XCore.Lua

/-! ## Colours -/

/-- A key of `theme`. -/
inductive Color
  | property
  | sep
  | braces
  | nil
  | boolean
  | number
  | string
  | quotes
  | escape
  | table

/-- A theme: a code has no `m`, which ends the sequence, and no line break. -/
structure Theme where
  code : Color → Bytes
  plain : ∀ c, 109 ∉ code c
  unbroken : ∀ c, LF ∉ code c

/-- `themes[16]`. -/
def theme16 : Theme where
  code
    | .property => [48, 59, 51, 55] -- 0;37
    | .sep => [49, 59, 51, 48] -- 1;30
    | .braces => [49, 59, 51, 48]
    | .nil => [49, 59, 51, 48]
    | .boolean => [48, 59, 51, 51] -- 0;33
    | .number => [49, 59, 51, 51] -- 1;33
    | .string => [48, 59, 51, 50] -- 0;32
    | .quotes => [49, 59, 51, 50] -- 1;32
    | .escape => [49, 59, 51, 50]
    | .table => [49, 59, 51, 52] -- 1;34
  plain c := by cases c <;> decide
  unbroken c := by cases c <;> decide

/-- `themes[256]`. -/
def theme256 : Theme where
  code
    | .property => [51, 56, 59, 53, 59, 50, 53, 51] -- 38;5;253
    | .braces => [51, 56, 59, 53, 59, 50, 52, 55] -- 38;5;247
    | .sep => [51, 56, 59, 53, 59, 50, 52, 48] -- 38;5;240
    | .nil => [51, 56, 59, 53, 59, 50, 52, 52] -- 38;5;244
    | .boolean => [51, 56, 59, 53, 59, 50, 50, 48] -- 38;5;220
    | .number => [51, 56, 59, 53, 59, 50, 48, 50] -- 38;5;202
    | .string => [51, 56, 59, 53, 59, 51, 52] -- 38;5;34
    | .quotes => [51, 56, 59, 53, 59, 52, 48] -- 38;5;40
    | .escape => [51, 56, 59, 53, 59, 52, 54] -- 38;5;46
    | .table => [51, 56, 59, 53, 59, 50, 55] -- 38;5;27
  plain c := by cases c <;> decide
  unbroken c := by cases c <;> decide

/-- `color`. -/
def color (theme : Theme) (colorName : Option Color) : Bytes :=
  [27, 91] ++ (match colorName with
    | some c => theme.code c
    | none => [48]) ++ [109]

/-- `colorize`; there is no theme if `useColors` is false. -/
def colorize (theme : Option Theme) (colorName : Color) (string : Bytes) (resetName : Option Color) : Bytes :=
  match theme with
  | some theme => color theme (some colorName) ++ string ++ color theme resetName
  | none => string

/-- `string.gsub(str, '\027%[[^m]*m', '')`, outside or within a sequence. -/
def stripFrom (within : Bool) : Bytes → Bytes
  | [] => []
  | c :: s =>
    if within then stripFrom (c != 109) s
    else if c = 27 ∧ s.head? = some 91 ∧ 109 ∈ s then stripFrom true s
    else c :: stripFrom false s

/-- `strip`. -/
def strip (str : Bytes) : Bytes := stripFrom false str

/-- A sequence is taken out up to its first `m`. -/
theorem stripFrom_within : ∀ {s : Bytes}, 109 ∉ s → ∀ t, stripFrom true (s ++ 109 :: t) = stripFrom false t
  | [], _, t => rfl
  | c :: s, h, t => by
    obtain ⟨hc, hs⟩ := not_or.1 (fun h' => h (List.mem_cons.2 h'))
    have hne : (c != 109) = true := bne_iff_ne.2 fun h' => hc h'.symm
    rw [List.cons_append, stripFrom, if_pos rfl, hne]
    exact stripFrom_within hs t

theorem strip_color (theme : Theme) (c : Option Color) (t : Bytes) : strip (color theme c ++ t) = strip t := by
  have hcut : ∀ {code : Bytes}, 109 ∉ code → strip ([27, 91] ++ code ++ [109] ++ t) = strip t := by
    intro code hcode
    have hm : (109 : UInt8) ∈ 91 :: (code ++ 109 :: t) :=
      List.mem_cons_of_mem _ (List.mem_append_right _ List.mem_cons_self)
    have hcode' : (109 : UInt8) ∉ 91 :: code := fun h => (List.mem_cons.1 h).elim (by decide) hcode
    have htext : [27, 91] ++ code ++ [109] ++ t = 27 :: 91 :: (code ++ 109 :: t) := by simp
    rw [htext, strip, stripFrom, if_neg Bool.false_ne_true, if_pos ⟨rfl, rfl, hm⟩]
    exact stripFrom_within hcode' t
  unfold color
  cases c with
  | none => exact hcut (show (109 : UInt8) ∉ [48] by decide)
  | some c => exact hcut (theme.plain c)

theorem strip_text : ∀ {s : Bytes}, 27 ∉ s → ∀ t, strip (s ++ t) = s ++ strip t
  | [], _, _ => rfl
  | c :: s, h, t => by
    obtain ⟨hc, hs⟩ := not_or.1 (fun h' => h (List.mem_cons.2 h'))
    have ih := strip_text hs t
    unfold strip at ih ⊢
    rw [List.cons_append, stripFrom, if_neg Bool.false_ne_true, if_neg fun h' => hc h'.1.symm, ih, List.cons_append]

/-- **What is seen of a coloured text** is the text. -/
theorem strip_colorize (theme : Option Theme) (c : Color) {s : Bytes} (hs : 27 ∉ s) (reset : Option Color) (t : Bytes) :
    strip (colorize theme c s reset ++ t) = s ++ strip t := by
  unfold colorize
  cases theme with
  | none => exact strip_text hs t
  | some theme =>
    dsimp only
    rw [List.append_assoc, List.append_assoc, strip_color, strip_text hs, strip_color]

/-- A coloured text has no line break of its own. -/
theorem unbroken_colorize (theme : Option Theme) (c : Color) {s : Bytes} (hs : LF ∉ s) (reset : Option Color) :
    LF ∉ colorize theme c s reset := by
  have hcolor : ∀ (theme : Theme) (c : Option Color), LF ∉ color theme c := by
    intro theme c h
    unfold color at h
    rcases List.mem_append.1 h with h | h
    · rcases List.mem_append.1 h with h | h
      · exact absurd h (by decide)
      · cases c with
        | none => exact absurd h (show LF ∉ [48] by decide)
        | some c => exact theme.unbroken c h
    · exact absurd h (by decide)
  unfold colorize
  cases theme with
  | none => exact hs
  | some theme =>
    intro h
    rcases List.mem_append.1 h with h | h
    · exact (List.mem_append.1 h).elim (hcolor theme _) hs
    · exact hcolor theme _ h

/-! ## Strings -/

/-- `special`. -/
def special (i : Nat) : Option UInt8 :=
  if i = 7 then some 97 else if i = 8 then some 98 else if i = 9 then some 116 else if i = 10 then some 110
  else if i = 11 then some 118 else if i = 12 then some 102 else if i = 13 then some 114 else none

/-- The name of a control character. -/
def controlName (i : Nat) : Bytes :=
  match special i with
  | some c => [c]
  | none => if i < 10 then [48, 48] ++ decNat i else 48 :: decNat i

/-- `controls`. -/
def controls (theme : Option Theme) (c : UInt8) : Option Bytes :=
  if c < 32 then some (colorize theme .escape (92 :: controlName c.toNat) (some .string))
  else if c = 92 ∨ c = 34 ∨ c = 39 then some (colorize theme .escape [92, c] (some .string))
  else none

/-- `string.gsub` of a class of characters by `stringEscape`, which may be nil. -/
def gsub (theme : Option Theme) (p : UInt8 → Bool) (s : Bytes) : Bytes :=
  s.flatMap fun c => if p c then (controls theme c).getD [c] else [c]

/-- What is written of a string: the quotation marks are `"` if it has `'` and no `"`. -/
def quoted (theme : Option Theme) (value : Bytes) : Bytes :=
  if 39 ∈ value ∧ 34 ∉ value then
    colorize theme .quotes [34] (some .string) ++ gsub theme (fun c => iscntrl c || c == 92) value ++
      colorize theme .quotes [34] none
  else
    colorize theme .quotes [39] (some .string) ++ gsub theme (fun c => iscntrl c || c == 92 || c == 39) value ++
      colorize theme .quotes [39] none

/-- `string.find(k, "^[%a_][%a%d_]*$")`. -/
def isIdentifier : Bytes → Bool
  | [] => false
  | c :: s => isName c && (digit c).isNone && s.all isName

theorem unbroken_controls {theme : Option Theme} {c : UInt8} {text : Bytes} (h : controls theme c = some text) :
    LF ∉ text := by
  have hname : ∀ i < 32, LF ∉ 92 :: controlName i := by decide +kernel
  unfold controls at h
  by_cases hcontrol : c < 32
  · rw [if_pos hcontrol] at h
    obtain rfl := Option.some.inj h
    exact unbroken_colorize theme .escape (hname c.toNat (UInt8.lt_iff_toNat_lt.1 hcontrol)) (some .string)
  · rw [if_neg hcontrol] at h
    split at h
    · rename_i hmark
      obtain rfl := Option.some.inj h
      refine unbroken_colorize theme .escape ?_ (some .string)
      rcases hmark with rfl | rfl | rfl <;> decide
    · cases h

/-- A line break is replaced. -/
theorem unbroken_gsub (theme : Option Theme) {p : UInt8 → Bool} (hp : p LF = true) (s : Bytes) :
    LF ∉ gsub theme p s := by
  intro h
  obtain ⟨c, -, hc⟩ := List.mem_flatMap.1 h
  by_cases hmatch : p c = true
  · rw [if_pos hmatch] at hc
    cases hcontrols : controls theme c with
    | some text =>
      rw [hcontrols] at hc
      exact unbroken_controls hcontrols hc
    | none =>
      rw [hcontrols] at hc
      have hline : LF = c := List.mem_singleton.1 hc
      rw [← hline] at hcontrols
      cases hcontrols
  · rw [if_neg hmatch] at hc
    have hline : LF = c := List.mem_singleton.1 hc
    exact hmatch (hline ▸ hp)

/-- A string is written without line breaks. -/
theorem unbroken_quoted (theme : Option Theme) (value : Bytes) : LF ∉ quoted theme value := by
  have hmarks : ∀ {c : UInt8} {reset : Option Color}, LF ≠ c → LF ∉ colorize theme .quotes [c] reset := fun hc =>
    unbroken_colorize theme .quotes (fun h => hc (List.mem_singleton.1 h)) _
  have hjoin : ∀ {s t u : Bytes}, LF ∉ s → LF ∉ t → LF ∉ u → LF ∉ s ++ t ++ u := fun hs ht hu h =>
    (List.mem_append.1 h).elim (fun h => (List.mem_append.1 h).elim hs ht) hu
  unfold quoted
  split
  · exact hjoin (hmarks (by decide)) (unbroken_gsub theme (by decide) value) (hmarks (by decide))
  · exact hjoin (hmarks (by decide)) (unbroken_gsub theme (by decide) value) (hmarks (by decide))

/-- A name has no line break. -/
theorem unbroken_identifier {k : Bytes} (h : isIdentifier k = true) : LF ∉ k := by
  have hname : ∀ c ∈ k, isName c = true := by
    cases k with
    | nil => exact fun c hc => (List.not_mem_nil hc).elim
    | cons c s =>
      obtain ⟨hfirst, hrest⟩ := Bool.and_eq_true_iff.1 h
      refine List.forall_mem_cons.2 ⟨(Bool.and_eq_true_iff.1 hfirst).1, List.all_eq_true.1 hrest⟩
  exact fun hmem => absurd (hname LF hmem) (by decide)

end XCore.Repl
