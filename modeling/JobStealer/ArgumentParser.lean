import Mathlib.Data.List.Basic
import Mathlib.Data.Nat.Find

/-!
# The command line

`ArgumentParser` with its lookup and its four getters. `argv` holds `argc`
strings, and a null pointer after them: making a `std::string` of that one is a
`pastEnd` fault here.

The getters test `pos == argc` where the last argument is at `argc - 1`, so an
option that comes last makes them read that null pointer; `lookup_iff` says that
nothing else goes wrong.
-/

namespace JobStealer

/-- What `std::stoi` and `std::stof` throw. -/
inductive Conversion
  | invalidArgument
  | outOfRange
  deriving DecidableEq

inductive ArgumentFault
  /-- `argv[i]` with `i` not below `argc` -/
  | pastEnd (i : Nat)
  | thrown (e : Conversion)
  deriving DecidableEq

/-! ## Numbers in strings -/

def isSpace (c : Char) : Bool := c.toNat = 32 || (9 ≤ c.toNat && c.toNat ≤ 13)

def digitValue (c : Char) : Option Nat :=
  if c.isDigit then some (c.toNat - 48)
  else if c.isLower then some (c.toNat - 87)
  else if c.isUpper then some (c.toNat - 55)
  else none

/-- The value of the digits the characters begin with; `none` if there are none. -/
def digits (base : Nat) (l : List Char) : Option Nat :=
  match (l.takeWhile fun c => (digitValue c).any (· < base)).filterMap digitValue with
  | [] => none
  | d :: rest => some (rest.foldl (fun value d => value * base + d) d)

/-- The base a number is read in, and where its digits begin: `0x` is skipped if
the base allows for it and a digit follows. -/
def radix (base : Nat) : List Char → Nat × List Char
  | '0' :: x :: c :: rest =>
    if (base = 0 ∨ base = 16) ∧ (x = 'x' ∨ x = 'X') ∧ (digitValue c).any (· < 16) then
      (16, c :: rest)
    else (if base = 0 then 8 else base, '0' :: x :: c :: rest)
  | '0' :: rest => (if base = 0 then 8 else base, '0' :: rest)
  | l => (if base = 0 then 10 else base, l)

/-- `std::stoi` with `nullptr` for the position. -/
def stoi (base : Nat) (s : String) : Except Conversion Int :=
  let l := s.toList.dropWhile isSpace
  let (sign, l) : Int × List Char := match l with
    | '-' :: l => (-1, l)
    | '+' :: l => (1, l)
    | l => (1, l)
  let (base, l) := radix base l
  match digits base l with
  | none => .error .invalidArgument
  | some value =>
    if -2147483648 ≤ sign * value ∧ sign * value ≤ 2147483647 then .ok (sign * value)
    else .error .outOfRange

example : stoi 10 " -42x" = .ok (-42) ∧ stoi 10 "2147483648" = .error .outOfRange ∧
    stoi 16 "0x1F" = .ok 31 ∧ stoi 10 "many" = .error .invalidArgument := by decide

/-! ## The parser -/

/-- `argc` is the number of strings. -/
structure ArgumentParser where
  argv : List String

namespace ArgumentParser
variable (p : ArgumentParser)

def argc : Nat := p.argv.length

/-- `std::string(argv[i])`. -/
def argument (i : Nat) : Except ArgumentFault String :=
  match p.argv[i]? with
  | some s => .ok s
  | none => .error (.pastEnd i)

/-- The loop of `GetPosition`, with `k` arguments from `i` on still to compare. -/
def search (shortArg longArg : String) : Nat → Nat → Except ArgumentFault Int
  | 0, _ => .ok (-1)
  | k + 1, i => do
    let current ← p.argument i
    if (shortArg ≠ "" ∧ current = shortArg) ∨ (current ≠ "" ∧ current = longArg) then return i
    else search shortArg longArg k (i + 1)

def getPosition (shortArg : String := "") (longArg : String := "") : Except ArgumentFault Int :=
  p.search shortArg longArg p.argc 0

def checkIfExists (shortArg : String := "") (longArg : String := "") :
    Except ArgumentFault Bool := do
  return (← p.getPosition shortArg longArg) ≠ -1

/-- What the four getters have in common. -/
def get {α : Type} (convert : String → Except Conversion α) (shortArg longArg : String)
    (defaultValue : α) : Except ArgumentFault α := do
  let pos ← p.getPosition shortArg longArg
  if pos = -1 ∨ pos = p.argc then return defaultValue
  (convert (← p.argument (pos + 1).toNat)).mapError .thrown

def getString (shortArg : String := "") (longArg : String := "") (defaultValue : String := "") :
    Except ArgumentFault String := p.get .ok shortArg longArg defaultValue

def getInt (shortArg : String := "") (longArg : String := "") (defaultValue : Int := -1)
    (base : Nat := 10) : Except ArgumentFault Int := p.get (stoi base) shortArg longArg defaultValue

/-- `std::stof` is a parameter: nothing here depends on the numbers it returns. -/
def getFloat (stof : String → Except Conversion Float32) (shortArg : String := "")
    (longArg : String := "") (defaultValue : Float32 := -1) : Except ArgumentFault Float32 :=
  p.get stof shortArg longArg defaultValue

/-- `std::transform` with `tolower`. -/
def toLower (s : String) : String := .ofList (s.toList.map Char.toLower)

/-- A `bool` returned as `float`. -/
def ofBool (b : Bool) : Float32 := if b then 1 else 0

def getBool (shortArg : String := "") (longArg : String := "") (defaultValue : Bool := false) :
    Except ArgumentFault Float32 :=
  p.get (fun value => .ok (ofBool (toLower value == "true" || toLower value == "1"))) shortArg
    longArg (ofBool defaultValue)

/-! ## The lookup -/

/-- The argument is one of the names, which counts only if it is not empty. -/
def Named (shortArg longArg current : String) : Prop :=
  (shortArg ≠ "" ∧ current = shortArg) ∨ (longArg ≠ "" ∧ current = longArg)

/-- The least index of an argument that is one of the names. -/
structure FirstAt (shortArg longArg : String) (i : Nat) : Prop where
  named : ∃ current, p.argv[i]? = some current ∧ Named shortArg longArg current
  least : ∀ k < i, ∀ current, p.argv[k]? = some current → ¬ Named shortArg longArg current

variable {p} {shortArg longArg : String} {i : Nat}

/-- The comparison in the loop treats the two names differently, to the same effect. -/
theorem named_iff {current : String} :
    (shortArg ≠ "" ∧ current = shortArg) ∨ (current ≠ "" ∧ current = longArg) ↔
      Named shortArg longArg current := by
  unfold Named
  apply or_congr_right
  constructor
  · rintro ⟨some, rfl⟩
    exact ⟨some, rfl⟩
  · rintro ⟨some, rfl⟩
    exact ⟨some, rfl⟩

theorem FirstAt.lt (first : p.FirstAt shortArg longArg i) : i < p.argc := by
  obtain ⟨_, eq, _⟩ := first.named
  exact (List.getElem?_eq_some_iff.mp eq).1

theorem first_or_absent (p : ArgumentParser) (shortArg longArg : String) :
    (∃ i, p.FirstAt shortArg longArg i) ∨ ∀ current ∈ p.argv, ¬ Named shortArg longArg current := by
  classical
  by_cases occurs :
      ∃ (i : Nat) (current : String), p.argv[i]? = some current ∧ Named shortArg longArg current
  · refine .inl ⟨Nat.find occurs, Nat.find_spec occurs, ?_⟩
    intro k before current eq named
    exact Nat.find_min occurs before ⟨current, eq, named⟩
  · right
    intro current mem named
    obtain ⟨i, eq⟩ := List.getElem?_of_mem mem
    exact occurs ⟨i, current, eq, named⟩

theorem argument_of_lt (inside : i < p.argc) :
    ∃ current, p.argv[i]? = some current ∧ p.argument i = .ok current := by
  have eq : p.argv[i]? = some (p.argv.get ⟨i, inside⟩) := List.getElem?_eq_getElem inside
  exact ⟨_, eq, by rw [argument, eq]⟩

theorem search_first (first : p.FirstAt shortArg longArg i) {k j : Nat} (rest : j + k = p.argc)
    (before : j ≤ i) : p.search shortArg longArg k j = .ok i := by
  induction k generalizing j with
  | zero =>
    have := first.lt
    omega
  | succ k ih =>
    obtain ⟨current, eq, read⟩ := argument_of_lt (p := p) (i := j) (by omega)
    simp only [search, read, bind, Except.bind]
    by_cases here : j = i
    · subst here
      obtain ⟨other, eq', named⟩ := first.named
      obtain rfl : other = current := Option.some.inj (eq'.symm.trans eq)
      rw [if_pos (named_iff.mpr named)]
      rfl
    · have earlier : j < i := by omega
      rw [if_neg fun same => first.least j earlier current eq (named_iff.mp same)]
      exact ih (by omega) earlier

theorem search_absent (absent : ∀ current ∈ p.argv, ¬ Named shortArg longArg current) {k j : Nat}
    (rest : j + k = p.argc) : p.search shortArg longArg k j = .ok (-1) := by
  induction k generalizing j with
  | zero => rfl
  | succ k ih =>
    obtain ⟨current, eq, read⟩ := argument_of_lt (p := p) (i := j) (by omega)
    simp only [search, read, bind, Except.bind]
    rw [if_neg fun same => absent current (List.mem_of_getElem? eq) (named_iff.mp same)]
    exact ih (by omega)

theorem getPosition_first (first : p.FirstAt shortArg longArg i) :
    p.getPosition shortArg longArg = .ok i :=
  search_first first (Nat.zero_add _) (Nat.zero_le _)

theorem getPosition_absent (absent : ∀ current ∈ p.argv, ¬ Named shortArg longArg current) :
    p.getPosition shortArg longArg = .ok (-1) :=
  search_absent absent (Nat.zero_add _)

theorem checkIfExists_first (first : p.FirstAt shortArg longArg i) :
    p.checkIfExists shortArg longArg = .ok true := by
  have found : (i : Int) ≠ -1 := by omega
  simp [checkIfExists, getPosition_first first, bind, Except.bind, pure, Except.pure, found]

theorem checkIfExists_absent (absent : ∀ current ∈ p.argv, ¬ Named shortArg longArg current) :
    p.checkIfExists shortArg longArg = .ok false := by
  simp [checkIfExists, getPosition_absent absent, bind, Except.bind, pure, Except.pure]

/-! ## The getters -/

section Get
variable {α : Type} (convert : String → Except Conversion α) (defaultValue : α)

/-- A getter that found an option reads the argument after it, wherever that is. -/
theorem get_first (first : p.FirstAt shortArg longArg i) :
    p.get convert shortArg longArg defaultValue =
      (p.argument (i + 1)).bind fun value => (convert value).mapError .thrown := by
  have inside : (i : Int) ≠ p.argc := by
    have := first.lt
    omega
  have next : ((i : Int) + 1).toNat = i + 1 := rfl
  have found : ¬ ((i : Int) = -1 ∨ (i : Int) = p.argc) := by omega
  simp only [get, getPosition_first first, bind, Except.bind, if_neg found, next]

theorem get_absent (absent : ∀ current ∈ p.argv, ¬ Named shortArg longArg current) :
    p.get convert shortArg longArg defaultValue = .ok defaultValue := by
  simp [get, getPosition_absent absent, bind, Except.bind, pure, Except.pure]

/-- The option is the last argument: the test for it compares with one too many. -/
theorem get_last (first : p.FirstAt shortArg longArg i) (last : i + 1 = p.argc) :
    p.get convert shortArg longArg defaultValue = .error (.pastEnd p.argc) := by
  have none : p.argv[i + 1]? = none := List.getElem?_eq_none (Nat.le_of_eq last.symm)
  rw [get_first convert defaultValue first, argument, none, last]
  rfl

end Get

/-- What a getter should return: the string after the first occurrence of a name,
converted, or the default if there is none; nothing at `argc` or above is read. -/
structure Follows {α : Type} (p : ArgumentParser) (shortArg longArg : String)
    (convert : String → Except Conversion α) (defaultValue : α)
    (result : Except ArgumentFault α) : Prop where
  next : ∀ i value, p.FirstAt shortArg longArg i → p.argv[i + 1]? = some value →
    result = (convert value).mapError .thrown
  default : ((∀ current ∈ p.argv, ¬ Named shortArg longArg current) ∨
    ∃ i, p.FirstAt shortArg longArg i ∧ i + 1 = p.argc) → result = .ok defaultValue
  inside : ∀ k, result ≠ .error (.pastEnd k)

theorem follows_iff {α : Type} (convert : String → Except Conversion α) (defaultValue : α) :
    Follows p shortArg longArg convert defaultValue
        (p.get convert shortArg longArg defaultValue) ↔
      ¬ ∃ i, p.FirstAt shortArg longArg i ∧ i + 1 = p.argc := by
  constructor
  · rintro follows ⟨i, first, last⟩
    exact follows.inside _ (get_last convert defaultValue first last)
  · intro notLast
    have next {i : Nat} {value : String} (first : p.FirstAt shortArg longArg i)
        (eq : p.argv[i + 1]? = some value) :
        p.get convert shortArg longArg defaultValue = (convert value).mapError .thrown := by
      rw [get_first convert defaultValue first, argument, eq]
      rfl
    refine ⟨fun _ _ => next, ?_, ?_⟩
    · intro missing
      cases missing with
      | inl absent => exact get_absent convert defaultValue absent
      | inr last => exact absurd last notLast
    · intro k
      cases first_or_absent p shortArg longArg with
      | inl occurs =>
        obtain ⟨i, first⟩ := occurs
        have more : i + 1 < p.argc := by
          have := first.lt
          have : i + 1 ≠ p.argc := fun last => notLast ⟨i, first, last⟩
          omega
        obtain ⟨value, eq, _⟩ := argument_of_lt more
        rw [next first eq]
        cases convert value with
        | ok a => rintro ⟨⟩
        | error e => rintro ⟨⟩
      | inr absent =>
        rw [get_absent convert defaultValue absent]
        rintro ⟨⟩

/-- What the lookup functions should do with these names. -/
structure LooksUp (p : ArgumentParser) (shortArg longArg : String) : Prop where
  position : ∀ i, p.FirstAt shortArg longArg i → p.getPosition shortArg longArg = .ok i
  absent : (∀ current ∈ p.argv, ¬ Named shortArg longArg current) →
    p.getPosition shortArg longArg = .ok (-1)
  string : ∀ defaultValue, Follows p shortArg longArg .ok defaultValue
    (p.getString shortArg longArg defaultValue)
  int : ∀ defaultValue base, Follows p shortArg longArg (stoi base) defaultValue
    (p.getInt shortArg longArg defaultValue base)
  float : ∀ stof defaultValue, Follows p shortArg longArg stof defaultValue
    (p.getFloat stof shortArg longArg defaultValue)
  bool : ∀ defaultValue, Follows p shortArg longArg
    (fun value => .ok (ofBool (toLower value == "true" || toLower value == "1")))
    (ofBool defaultValue) (p.getBool shortArg longArg defaultValue)

/-- They do so unless the first argument that is one of the names is also the last. -/
theorem lookup_iff (p : ArgumentParser) (shortArg longArg : String) :
    LooksUp p shortArg longArg ↔ ¬ ∃ i, p.FirstAt shortArg longArg i ∧ i + 1 = p.argc := by
  constructor
  · intro looksUp
    exact (follows_iff .ok "").mp (looksUp.string "")
  · intro notLast
    exact {
      position := fun _ => getPosition_first
      absent := getPosition_absent
      string := fun _ => (follows_iff _ _).mpr notLast
      int := fun _ _ => (follows_iff _ _).mpr notLast
      float := fun _ _ => (follows_iff _ _).mpr notLast
      bool := fun _ => (follows_iff _ _).mpr notLast }

/-- The thread option without a number behind it. -/
theorem lookup_past_end :
    (⟨["job_stealer", "-t"]⟩ : ArgumentParser).getInt "-t" "--threads" = .error (.pastEnd 2) ∧
      ¬ LooksUp ⟨["job_stealer", "-t"]⟩ "-t" "--threads" := by
  have reads : (⟨["job_stealer", "-t"]⟩ : ArgumentParser).getInt "-t" "--threads" =
      .error (.pastEnd 2) := by decide
  exact ⟨reads, fun looksUp => (looksUp.int (-1) 10).inside 2 reads⟩

end ArgumentParser
end JobStealer
