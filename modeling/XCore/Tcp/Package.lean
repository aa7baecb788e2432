import XCore.Lib.Loop
import XCore.Lua.Str

/-!
# The package loop of `tcp.lua`

`CTcpServer:Recv` and `CTcpClient:Recv` end in the same loop: call the package parser on the table
`{meta=, pak=, left=}`, emit `pak` when it is set, and go on while the parser returns true. `parseRound` is one round;
`Parses parser pkg r` says that the loop started on `pkg` ends with `r`: the table it leaves, the payloads it emits, and
the error it raises, if any. The rules are `parses_more`, `parses_stop` and `parses_raise`, one for each outcome of the
parser.
-/

namespace XCore.Tcp

open XCore.Lua XCore.Loop

/-- The table a package parser works on: `meta`, `left` and `pak`. -/
structure Pkg (L P : Type) where
  metaStr : Bytes
  left : Option L
  pak : Option P
  deriving DecidableEq

/-- The result of a call of a package parser: the table as the call leaves it, and the returned flag (nil counts as
false) or the raised error. -/
structure Parsed (L P : Type) where
  pkg : Pkg L P
  flag : Except LuaError Bool

/-- A package parser, as given to `SetPackageParser`. -/
abbrev PackageParser (L P : Type) := Pkg L P → Parsed L P

/-- What the loop leaves behind. -/
structure Received (L P : Type) where
  pkg : Pkg L P
  paks : List P
  err : Option LuaError
  deriving DecidableEq

/-- What `OnEvent("recv", …)` carries: the data as it came, or a parsed payload. -/
inductive Payload (P : Type)
  | data (d : Bytes)
  | pak (p : P)
  deriving DecidableEq

variable {L P : Type}

/-- One round of the loop; the state is the table and the payloads emitted so far. -/
def parseRound (parser : PackageParser L P) : Pkg L P × List P → Round (Pkg L P × List P) (Received L P)
  | (pkg, paks) =>
    let out := parser { pkg with pak := none }
    match out.flag with
    | .error e => .leave ⟨out.pkg, paks, some e⟩
    | .ok flag =>
      let pkg' := { out.pkg with pak := none }
      let paks' := paks ++ out.pkg.pak.toList
      if flag then .next (pkg', paks') else .leave ⟨pkg', paks', none⟩

/-- The loop with a number of rounds. -/
def parseLoop (parser : PackageParser L P) (fuel : Nat) (pkg : Pkg L P) : Option (Received L P) :=
  run (parseRound parser) fuel (pkg, [])

/-- The loop started on `pkg` ends with `r`. -/
def Parses (parser : PackageParser L P) (pkg : Pkg L P) (r : Received L P) : Prop :=
  Ends (parseRound parser) (pkg, []) r

/-- Payloads emitted earlier come first. -/
def Received.after (paks : List P) (r : Received L P) : Received L P := { r with paks := paks ++ r.paks }

variable {parser : PackageParser L P} {pkg pkg' : Pkg L P} {r : Received L P}

theorem parseLoop_parses {fuel : Nat} (h : parseLoop parser fuel pkg = some r) : Parses parser pkg r := ⟨fuel, h⟩

/-- The loop only appends to the payloads emitted before. -/
theorem run_parseRound (n : Nat) : ∀ (pkg : Pkg L P) (paks : List P),
    run (parseRound parser) n (pkg, paks) = (run (parseRound parser) n (pkg, [])).map (Received.after paks) := by
  induction n with
  | zero => intro _ _; rfl
  | succ n ih =>
    intro pkg paks
    simp only [run, parseRound]
    cases (parser { pkg with pak := none }).flag with
    | error e => simp [Received.after]
    | ok flag =>
      cases flag with
      | false => simp [Received.after]
      | true =>
        simp only [↓reduceIte, List.nil_append]
        rw [ih _ (paks ++ _), ih _ (Option.toList _), Option.map_map]
        congr 1
        funext r
        simp [Received.after, List.append_assoc]

/-- The parser returns true: its payload is emitted and the loop goes on. -/
theorem parses_more {p : Pkg L P} (h : parser { p with pak := none } = ⟨pkg', .ok true⟩) :
    Parses parser p r ↔ ∃ r', Parses parser { pkg' with pak := none } r' ∧ r = r'.after pkg'.pak.toList := by
  have hround : parseRound parser (p, []) = .next ({ pkg' with pak := none }, pkg'.pak.toList) := by
    simp [parseRound, h]
  rw [Parses, ends_next hround]
  constructor
  · rintro ⟨n, hn⟩
    rw [run_parseRound] at hn
    obtain ⟨r', hr', rfl⟩ := Option.map_eq_some_iff.1 hn
    exact ⟨r', ⟨n, hr'⟩, rfl⟩
  · rintro ⟨r', ⟨n, hn⟩, rfl⟩
    exact ⟨n, by rw [run_parseRound, hn]; rfl⟩

/-- The parser returns false or nil: the loop ends. -/
theorem parses_stop {p : Pkg L P} (h : parser { p with pak := none } = ⟨pkg', .ok false⟩) :
    Parses parser p r ↔ r = ⟨{ pkg' with pak := none }, pkg'.pak.toList, none⟩ := by
  rw [Parses, ends_leave (by simp only [parseRound, h]; rfl)]
  simp

/-- The parser raises an error, which leaves the loop. -/
theorem parses_raise {e : LuaError} (h : parser { pkg with pak := none } = ⟨pkg', .error e⟩) :
    Parses parser pkg r ↔ r = ⟨pkg', [], some e⟩ := by
  rw [Parses, ends_leave (by simp only [parseRound, h]; rfl)]

theorem Parses.unique {r' : Received L P} (h : Parses parser pkg r) (h' : Parses parser pkg r') : r = r' :=
  Ends.unique h h'

/-! ## The calls of the loop -/

/-- The tables the parser is called on in the loop started on a table. -/
inductive Visits (parser : PackageParser L P) (pkg : Pkg L P) : Pkg L P → Prop
  | start : Visits parser pkg { pkg with pak := none }
  | more {pkg' o : Pkg L P} (h : Visits parser pkg pkg') (hcall : parser pkg' = ⟨o, .ok true⟩) :
      Visits parser pkg { o with pak := none }

/-- An invariant of `left` that the parser keeps holds in every call. -/
theorem Visits.left_inv {I : Option L → Prop} (hI : ∀ pkg, I pkg.left → I (parser pkg).pkg.left) (h0 : I pkg.left)
    (h : Visits parser pkg pkg') : I pkg'.left := by
  induction h with
  | start => exact h0
  | more _ hcall ih =>
    have := hI _ ih
    rwa [hcall] at this

/-- And it holds of the table that the loop leaves. -/
theorem Parses.left_inv {I : Option L → Prop} (hI : ∀ pkg, I pkg.left → I (parser pkg).pkg.left) (h0 : I pkg.left)
    (h : Parses parser pkg r) : I r.pkg.left := by
  have key : ∀ s : Pkg L P × List P, I s.1.left → match parseRound parser s with
      | .next s' => I s'.1.left
      | .leave r => I r.pkg.left := by
    rintro ⟨p, paks⟩ hp
    have hcall := hI { p with pak := none } hp
    obtain ⟨out, flag, ho⟩ : ∃ out flag, parser { p with pak := none } = ⟨out, flag⟩ := ⟨_, _, rfl⟩
    simp only [parseRound, ho] at hcall ⊢
    match flag with
    | .error e => exact hcall
    | .ok false => exact hcall
    | .ok true => exact hcall
  obtain ⟨s, hs, hleave⟩ := Ends.inv (fun s => I s.1.left) (fun s s' hs hn => by simpa only [hn] using key s hs)
    (s := (pkg, [])) h0 h
  simpa only [hleave] using key s hs

/-- A call that returns true shortens the buffered data. -/
def Shortens (parser : PackageParser L P) (pkg : Pkg L P) : Prop :=
  ∀ out, parser pkg = ⟨out, .ok true⟩ → out.metaStr.length < pkg.metaStr.length

/-- The loop ends when every call in it shortens the buffered data. -/
theorem parses_of_shortens (h : ∀ pkg', Visits parser pkg pkg' → Shortens parser pkg') : ∃ r, Parses parser pkg r := by
  refine ends_of_measure (fun s => Visits parser pkg { s.1 with pak := none }) (fun s => s.1.metaStr.length) ?_ .start
  rintro ⟨p, paks⟩ s' hv hround
  obtain ⟨out, flag, hcall⟩ : ∃ out flag, parser { p with pak := none } = ⟨out, flag⟩ := ⟨_, _, rfl⟩
  simp only [parseRound, hcall] at hround
  match flag with
  | .error e => cases hround
  | .ok false => cases hround
  | .ok true =>
    simp only [↓reduceIte, Round.next.injEq] at hround
    subst hround
    exact ⟨Visits.more (o := out) hv hcall, h _ hv out hcall⟩

/-- A call that returns true and gives back the table it was called on is repeated for ever. -/
theorem not_parses_of_fixed {p : Pkg L P} (h : parser { p with pak := none } = ⟨pkg', .ok true⟩)
    (hfix : { pkg' with pak := none } = p) : ¬Parses parser p r := by
  rintro ⟨n, hn⟩
  induction n generalizing r with
  | zero => cases hn
  | succ n ih =>
    simp only [run, parseRound, h, ↓reduceIte, hfix] at hn
    rw [run_parseRound] at hn
    obtain ⟨r', hr', -⟩ := Option.map_eq_some_iff.1 hn
    exact ih hr'

end XCore.Tcp
