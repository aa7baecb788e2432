import XCore.Lua.Number
import XCore.Tcp.Client

/-!
# The reply parser of `redis.lua`

`respParser` is the package parser that `CRedis:Start` installs. A reply has a flag byte, a head line and, for bulk and
array replies, a body; what is read of a reply that is not complete stays in `data.left` (`Left`), and the parser goes
on there when more data has come. Its parts, in the order of the source:

- `readFlag` and `readHead`: the flag and the head, unless `left` holds them;
- `bulk`: the branch of `$`;
- `elements` and `multiBulk`: the loop over the elements and the branch of `*`.

Positions in a bulk or array reply are computed from lengths the server sends, which `tonumber` may have read as floats;
so they are `Number`.
-/

namespace XCore.Redis

open XCore.Lua XCore.Tcp

/-- `pak.head`: the text of the head line, or the number it has been turned into. -/
inductive Head
  | str (s : Bytes)
  | num (n : Number)
  deriving DecidableEq

/-- `data.left`: the reply being read. -/
structure Left where
  flag : Option Bytes
  head : Option Head
  body : Option (List Bytes)
  deriving DecidableEq

/-- The data of a reply. An array is a Lua sequence, `none` where it has no entry. -/
inductive RData
  | nil
  | str (s : Bytes)
  | num (n : Number)
  | list (l : List (Option Bytes))
  deriving DecidableEq

/-- `data.pak`: `{ret=, data=}`. -/
structure Pak where
  ret : Bool
  data : RData
  deriving DecidableEq

/-- The table `data` of the parser. -/
abbrev Data := Pkg Left Pak

/-- `"+"`. -/
def fPlus : Bytes := [43]

/-- `"-"`. -/
def fMinus : Bytes := [45]

/-- `":"`. -/
def fColon : Bytes := [58]

/-- `"$"`. -/
def fDollar : Bytes := [36]

/-- `"*"`. -/
def fStar : Bytes := [42]

/-- A head as reply data. -/
def Head.data : Head → RData
  | str s => .str s
  | num n => .num n

/-- `tonumber(pak.head)`. -/
def Head.tonumber : Head → Option Number
  | str s => Lua.tonumber s
  | num n => some n

/-- A number or nil as reply data. -/
def numData : Option Number → RData
  | none => .nil
  | some n => .num n

/-- `s:sub(i, j)` with number arguments. -/
def subNum (s : Bytes) (i j : Number) : Except LuaError Bytes :=
  match i.toInteger, j.toInteger with
  | some i, some j => .ok (sub s i j)
  | _, _ => .error .noInteger

/-- `s:sub(i)` with a number argument. -/
def subFromNum (s : Bytes) (i : Number) : Except LuaError Bytes :=
  match i.toInteger with
  | some i => .ok (subFrom s i)
  | none => .error .noInteger

/-- The flag, and the position after it. -/
def readFlag (s : Bytes) (pak : Left) : Left × Int :=
  match pak.flag with
  | none => ({ pak with flag := some (sub s 1 1) }, 2)
  | some _ => (pak, 1)

/-- The head and the position after it; `none` when the line is not complete. -/
def readHead (s : Bytes) (pak : Left) (curpos : Int) : Option (Head × Int) :=
  match pak.head with
  | some head => some (head, curpos)
  | none => match find s crlf curpos with
    | none => none
    | some (endpos, _) => some (.str (sub s curpos (endpos - 1)), endpos + 2)

/-- A reply without a body. -/
def line (data : Data) (ret : Bool) (d : RData) (curpos : Int) : Parsed Left Pak :=
  ⟨{ data with pak := some ⟨ret, d⟩, left := none, metaStr := subFrom data.metaStr curpos }, .ok true⟩

/-- The branch of `$`; `data.left` is `pak`. -/
def bulk (data : Data) (head : Option Number) (curpos maxpos : Int) : Parsed Left Pak :=
  match head with
  | none => ⟨data, .error .arithNil⟩
  | some head =>
    let stop := (Number.int curpos).add head
    let next := stop.add (.int 2)
    if (Number.int maxpos).lt next then
      ⟨{ data with metaStr := subFrom data.metaStr curpos }, .ok false⟩
    else match subNum data.metaStr (.int curpos) stop with
      | .error e => ⟨data, .error e⟩
      | .ok s =>
        let data' := { data with pak := some ⟨true, .str s⟩, left := none }
        match subFromNum data.metaStr next with
        | .error e => ⟨data', .error e⟩
        | .ok rest => ⟨{ data' with metaStr := rest }, .ok true⟩

/-- Where the loop over the elements stands when it is left: `curpos`, `pak.body`, and `full` or the raised error. -/
structure Elements where
  curpos : Number
  body : List Bytes
  full : Except LuaError Bool
  deriving DecidableEq

/-- The loop over the elements of an array: `n` rounds are left, and `beginpos` is `curpos`. -/
def elements (s : Bytes) (maxpos : Int) : Nat → Number → List Bytes → Elements
  | 0, curpos, body => ⟨curpos, body, .ok true⟩
  | n + 1, curpos, body =>
    match curpos.toInteger, (curpos.add (.int 1)).toInteger with
    | some beginpos, some beginpos1 =>
      match find s crlf beginpos with
      | none => ⟨curpos, body, .ok false⟩
      | some (endpos, _) =>
        match tonumber (sub s beginpos1 endpos) with
        | none => ⟨curpos, body, .error .arithNil⟩
        | some size =>
          let endpos := Number.int (endpos + 2)
          let next := (endpos.add size).add (.int 2)
          if (Number.int maxpos).lt next then ⟨curpos, body, .ok false⟩
          else match subNum s endpos ((endpos.add size).sub (.int 1)) with
            | .error e => ⟨curpos, body, .error e⟩
            | .ok e => elements s maxpos n next (body ++ [e])
    | _, _ => ⟨curpos, body, .error .noInteger⟩

/-- The branch of `*`; `data.left` is `pak`. -/
def multiBulk (data : Data) (pak : Left) (head : Option Number) (curpos maxpos : Int) : Parsed Left Pak :=
  match head with
  | none => ⟨data, .error .arithNil⟩
  | some head =>
    if (Number.int maxpos).lt ((Number.int curpos).add (head.mul (.int 7))) then
      ⟨{ data with metaStr := subFrom data.metaStr curpos }, .ok false⟩
    else
      let r := elements data.metaStr maxpos head.forCount (.int curpos) (pak.body.getD [])
      let left := some { pak with body := some r.body }
      match r.full with
      | .error e => ⟨{ data with left := left }, .error e⟩
      | .ok false => match subFromNum data.metaStr r.curpos with
        | .error e => ⟨{ data with left := left }, .error e⟩
        | .ok rest => ⟨{ data with left := left, metaStr := rest }, .ok false⟩
      | .ok true =>
        let data' := { data with pak := some ⟨true, .list (r.body.map some)⟩, left := none }
        match subFromNum data.metaStr r.curpos with
        | .error e => ⟨data', .error e⟩
        | .ok rest => ⟨{ data' with metaStr := rest }, .ok true⟩

/-- From the head on: `pak` with its flag, the head and the position after it. -/
def afterHead (data : Data) (pak : Left) (head : Head) (curpos maxpos : Int) : Parsed Left Pak :=
  if pak.flag = some fPlus then line data true head.data curpos
  else if pak.flag = some fMinus then line data false head.data curpos
  else
    let n := head.tonumber
    let pak := { pak with head := n.map .num }
    let data := { data with left := some pak }
    if pak.flag = some fColon then line data true (numData n) curpos
    else if pak.flag = some fDollar then bulk data n curpos maxpos
    else if pak.flag = some fStar then multiBulk data pak n curpos maxpos
    else ⟨data, .ok false⟩

/-- The package parser of `CRedis:Start`. -/
def respParser : PackageParser Left Pak := fun data =>
  let maxpos : Int := data.metaStr.length
  if maxpos ≤ 0 then ⟨data, .ok false⟩
  else
    let maxpos := maxpos + 1
    let (pak, curpos) := readFlag data.metaStr (data.left.getD ⟨none, none, none⟩)
    match readHead data.metaStr pak curpos with
    | none => ⟨{ data with left := some pak }, .ok false⟩
    | some (head, curpos) => afterHead data pak head curpos maxpos

/-- The client that `CRedis:Start` sets up. -/
def started : CTcpClient Left Pak := CTcpClient.Create.SetPackageParser respParser

/-! ## What a call can do

Inversion of a call that returns true, branch by branch, and the frame of a call that returns false or nil. -/

/-- A bulk reply with length field `n` is complete: its text goes from `curpos` to `stop`, and `p` is the position after
it. -/
def BulkEnd (n : Number) (curpos maxpos stop p : Int) : Prop :=
  (Number.int maxpos).lt (((Number.int curpos).add n).add (.int 2)) = false ∧
    ((Number.int curpos).add n).toInteger = some stop ∧ (((Number.int curpos).add n).add (.int 2)).toInteger = some p

/-- The elements of an array with head `n` are complete from `curpos` on: the loop reads `body`, and `p` is the position
after it. -/
def ArrayEnd (s : Bytes) (n : Number) (before : List Bytes) (curpos maxpos p : Int) (body : List Bytes) : Prop :=
  (Number.int maxpos).lt ((Number.int curpos).add (n.mul (.int 7))) = false ∧
    ∃ q, elements s maxpos n.forCount (.int curpos) before = ⟨q, body, .ok true⟩ ∧ q.toInteger = some p

theorem bulk_true_iff {data pkg' : Data} {head : Option Number} {curpos maxpos : Int} :
    bulk data head curpos maxpos = ⟨pkg', .ok true⟩ ↔
      ∃ n stop p, head = some n ∧ BulkEnd n curpos maxpos stop p ∧
        pkg' = ⟨subFrom data.metaStr p, none, some ⟨true, .str (sub data.metaStr curpos stop)⟩⟩ := by
  cases head with
  | none => simp [bulk]
  | some n =>
    cases hlt : (Number.int maxpos).lt (((Number.int curpos).add n).add (.int 2)) with
    | true => simp [bulk, BulkEnd, hlt]
    | false =>
      cases hj : ((Number.int curpos).add n).toInteger with
      | none => simp [bulk, BulkEnd, hlt, subNum, hj]
      | some j =>
        cases hp : (((Number.int curpos).add n).add (.int 2)).toInteger with
        | none => simp [bulk, BulkEnd, hlt, subNum, subFromNum, hj, hp]
        | some p => simp [bulk, BulkEnd, hlt, subNum, subFromNum, hj, hp, @eq_comm _ _ pkg']

theorem multiBulk_true_iff {data pkg' : Data} {pak : Left} {head : Option Number} {curpos maxpos : Int} :
    multiBulk data pak head curpos maxpos = ⟨pkg', .ok true⟩ ↔
      ∃ n p body, head = some n ∧ ArrayEnd data.metaStr n (pak.body.getD []) curpos maxpos p body ∧
        pkg' = ⟨subFrom data.metaStr p, none, some ⟨true, .list (body.map some)⟩⟩ := by
  cases head with
  | none => simp [multiBulk]
  | some n =>
    cases hlt : (Number.int maxpos).lt ((Number.int curpos).add (n.mul (.int 7))) with
    | true => simp [multiBulk, ArrayEnd, hlt]
    | false =>
      obtain ⟨q, body, full, hr⟩ : ∃ q body full,
          elements data.metaStr maxpos n.forCount (.int curpos) (pak.body.getD []) = ⟨q, body, full⟩ := ⟨_, _, _, rfl⟩
      match full with
      | .error e => simp [multiBulk, ArrayEnd, hlt, hr]
      | .ok false => cases hq : q.toInteger <;> simp [multiBulk, ArrayEnd, hlt, hr, subFromNum, hq]
      | .ok true => cases hq : q.toInteger <;> simp [multiBulk, ArrayEnd, hlt, hr, subFromNum, hq, @eq_comm _ _ pkg']

theorem bulk_false {data pkg' : Data} {head : Option Number} {curpos maxpos : Int}
    (h : bulk data head curpos maxpos = ⟨pkg', .ok false⟩) :
    pkg' = { data with metaStr := subFrom data.metaStr curpos } := by
  cases head with
  | none => simp [bulk] at h
  | some n =>
    simp only [bulk] at h
    split at h
    · simpa using h.symm
    · split at h
      · simp at h
      · split at h <;> simp at h

theorem multiBulk_false {data pkg' : Data} {pak : Left} {head : Option Number} {curpos maxpos : Int}
    (h : multiBulk data pak head curpos maxpos = ⟨pkg', .ok false⟩) :
    pkg'.pak = data.pak ∧ (pkg'.left = data.left ∨ ∃ q body, pkg'.left = some { pak with body := some body } ∧
      ∃ n, head = some n ∧ elements data.metaStr maxpos n.forCount (.int curpos) (pak.body.getD []) =
          ⟨q, body, .ok false⟩) := by
  cases head with
  | none => simp [multiBulk] at h
  | some n =>
    obtain ⟨q, body, full, hr⟩ : ∃ q body full,
        elements data.metaStr maxpos n.forCount (.int curpos) (pak.body.getD []) = ⟨q, body, full⟩ := ⟨_, _, _, rfl⟩
    simp only [multiBulk, hr] at h
    split at h
    · cases h; exact ⟨rfl, Or.inl rfl⟩
    · match full with
      | .error e => simp at h
      | .ok false =>
        cases hq : q.toInteger with
        | none => simp [subFromNum, hq] at h
        | some p =>
          simp only [subFromNum, hq] at h
          cases h
          exact ⟨rfl, Or.inr ⟨q, body, rfl, n, rfl, hr⟩⟩
      | .ok true => cases hq : q.toInteger <;> simp [subFromNum, hq] at h

/-- The loop over the elements only appends, and one element in every round. -/
theorem length_elements {s : Bytes} {maxpos : Int} :
    ∀ {n : Nat} {p q : Number} {before body : List Bytes} {f : Except LuaError Bool},
    elements s maxpos n p before = ⟨q, body, f⟩ →
      before.length ≤ body.length ∧ (f = .ok true → body.length = before.length + n)
  | 0, p, q, before, body, f, h => by
    simp only [elements, Elements.mk.injEq] at h
    obtain ⟨-, rfl, -⟩ := h
    simp
  | n + 1, p, q, before, body, f, h => by
    unfold elements at h
    split at h
    · split at h
      · cases h; simp
      · split at h
        · cases h; simp
        · dsimp only at h
          split at h
          · cases h; simp
          · split at h
            · cases h; simp
            · obtain ⟨h1, h2⟩ := length_elements h
              simp only [List.length_append, List.length_cons, List.length_nil] at h1 h2
              exact ⟨by omega, fun hf => by rw [h2 hf]; omega⟩
    · cases h; simp

theorem afterHead_dollar (data : Data) (h : Option Head) (body : Option (List Bytes)) (head : Head)
    (curpos maxpos : Int) :
    afterHead data ⟨some fDollar, h, body⟩ head curpos maxpos =
      bulk { data with left := some ⟨some fDollar, head.tonumber.map .num, body⟩ } head.tonumber curpos maxpos := rfl

theorem afterHead_star (data : Data) (h : Option Head) (body : Option (List Bytes)) (head : Head)
    (curpos maxpos : Int) :
    afterHead data ⟨some fStar, h, body⟩ head curpos maxpos =
      multiBulk { data with left := some ⟨some fStar, head.tonumber.map .num, body⟩ }
        ⟨some fStar, head.tonumber.map .num, body⟩ head.tonumber curpos maxpos := rfl

/-- Which payload a reply with a flag and a head is given, and where the rest begins. -/
inductive ReplyEnd (s : Bytes) (pak : Left) (head : Head) (curpos maxpos : Int) : Int → Pak → Prop
  | status : pak.flag = some fPlus → ReplyEnd s pak head curpos maxpos curpos ⟨true, head.data⟩
  | error : pak.flag = some fMinus → ReplyEnd s pak head curpos maxpos curpos ⟨false, head.data⟩
  | integer : pak.flag = some fColon → ReplyEnd s pak head curpos maxpos curpos ⟨true, numData head.tonumber⟩
  | bulk {n : Number} {stop p : Int} : pak.flag = some fDollar → head.tonumber = some n →
      BulkEnd n curpos maxpos stop p → ReplyEnd s pak head curpos maxpos p ⟨true, .str (sub s curpos stop)⟩
  | array {n : Number} {p : Int} {body : List Bytes} : pak.flag = some fStar → head.tonumber = some n →
      ArrayEnd s n (pak.body.getD []) curpos maxpos p body →
      ReplyEnd s pak head curpos maxpos p ⟨true, .list (body.map some)⟩

/-- The call returns true exactly when a reply ends in the buffer. -/
theorem afterHead_true_iff {data pkg' : Data} {pak : Left} {head : Head} {curpos maxpos : Int} :
    afterHead data pak head curpos maxpos = ⟨pkg', .ok true⟩ ↔
      ∃ p q, ReplyEnd data.metaStr pak head curpos maxpos p q ∧ pkg' = ⟨subFrom data.metaStr p, none, some q⟩ := by
  obtain ⟨flag, h, body⟩ := pak
  constructor
  · intro h
    simp only [afterHead] at h
    split at h
    · rename_i hf; subst hf; cases h; exact ⟨_, _, .status rfl, rfl⟩
    split at h
    · rename_i hf; subst hf; cases h; exact ⟨_, _, .error rfl, rfl⟩
    split at h
    · rename_i hf; subst hf; cases h; exact ⟨_, _, .integer rfl, rfl⟩
    split at h
    · rename_i hf
      subst hf
      obtain ⟨n, stop, p, hn, hend, rfl⟩ := bulk_true_iff.1 h
      exact ⟨p, _, .bulk rfl hn hend, rfl⟩
    split at h
    · rename_i hf
      subst hf
      obtain ⟨n, p, body, hn, hend, rfl⟩ := multiBulk_true_iff.1 h
      exact ⟨p, _, .array rfl hn hend, rfl⟩
    · simp at h
  · rintro ⟨p, q, hend, rfl⟩
    cases hend with
    | status hf => simp only at hf; subst hf; rfl
    | error hf => simp only at hf; subst hf; rfl
    | integer hf => simp only at hf; subst hf; rfl
    | bulk hf hn hb =>
      simp only at hf
      subst hf
      exact bulk_true_iff.2 ⟨_, _, _, hn, hb, rfl⟩
    | array hf hn ha =>
      simp only at hf
      subst hf
      exact multiBulk_true_iff.2 ⟨_, _, _, hn, ha, rfl⟩

/-- The call returns true only with a head, and after a head what it does is `afterHead`. -/
theorem respParser_true_iff {data pkg' : Data} :
    respParser data = ⟨pkg', .ok true⟩ ↔ data.metaStr ≠ [] ∧ ∃ head curpos,
      readHead data.metaStr (readFlag data.metaStr (data.left.getD ⟨none, none, none⟩)).1
        (readFlag data.metaStr (data.left.getD ⟨none, none, none⟩)).2 = some (head, curpos) ∧
      afterHead data (readFlag data.metaStr (data.left.getD ⟨none, none, none⟩)).1 head curpos
        (data.metaStr.length + 1) = ⟨pkg', .ok true⟩ := by
  by_cases hm : data.metaStr = []
  · simp [respParser, hm]
  · have hpos : ¬((data.metaStr.length : Int) ≤ 0) := by
      have := List.length_pos_of_ne_nil hm
      omega
    simp only [respParser, hpos, ↓reduceIte]
    cases hr : readHead data.metaStr (readFlag data.metaStr (data.left.getD ⟨none, none, none⟩)).1
      (readFlag data.metaStr (data.left.getD ⟨none, none, none⟩)).2 with
    | none => simp
    | some r => obtain ⟨head, curpos⟩ := r; simp [hm]

/-- A call that returns false or nil emits nothing. -/
theorem respParser_false {data pkg' : Data} (h : respParser data = ⟨pkg', .ok false⟩) : pkg'.pak = data.pak := by
  simp only [respParser] at h
  split at h
  · cases h; rfl
  split at h
  · cases h; rfl
  · rename_i head curpos _
    simp only [afterHead, line] at h
    split at h
    · simp at h
    split at h
    · simp at h
    split at h
    · simp at h
    split at h
    · rw [bulk_false h]
    split at h
    · exact (multiBulk_false h).1
    · cases h; rfl

end XCore.Redis
