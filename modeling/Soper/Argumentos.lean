import Soper.Library.TextFormat
import Soper.Pow

/-!
# Command lines

Every program reads its arguments as decimal numbers with `atoi` or `strtoul` and checks each of
them with `number_range_error_handler`, which ends the program with a message. An argument is
the list of its characters here; `argv[0]` is left out.

`configuraciones` says which configurations the programs can be started with: those within the
bounds, all of them and no others, whatever blanks, signs or superfluous digits a user types. The
exception is the lag of the miner of the third practice: it is read from the argument of the
rounds, so it always equals their number.
-/

namespace Soper.Argumentos

open Library

/-! ### Numbers -/

/-- `isspace`. -/
def isspace (c : Char) : Bool := [' ', '\t', '\n', '\x0b', '\x0c', '\r'].contains c

/-- Blanks, a sign and digits: whether the sign is `-`, the digits, and the rest. -/
def readNumber (s : List Char) : Option (Bool × ℕ × List Char) :=
  let t := s.dropWhile isspace
  if t.head? = some '-' then (readUnsigned t.tail).map fun p => (true, p)
  else if t.head? = some '+' then (readUnsigned t.tail).map fun p => (false, p)
  else (readUnsigned t).map fun p => (false, p)

/-- `strtol` in base 10: the number, limited to the range of `long`. -/
def strtol (s : List Char) : ℤ :=
  match readNumber s with
  | none => 0
  | some (true, n, _) => max (-2 ^ 63) (-n)
  | some (false, n, _) => min (2 ^ 63 - 1) n

/-- `atoi` is `strtol` converted to `int`. -/
def atoi (s : List Char) : ℤ := toInt (strtol s)

/-- `strtoul` in base 10: the number modulo `2 ^ 64`, or `ULONG_MAX` where the digits do not fit,
and what `*strptr` points to. -/
def strtoul (s : List Char) : ℕ × List Char :=
  match readNumber s with
  | none => (0, s)
  | some (neg, n, r) =>
    (if 2 ^ 64 ≤ n then 2 ^ 64 - 1 else if neg then (2 ^ 64 - n) % 2 ^ 64 else n, r)

theorem not_isspace_of_isDigit {c : Char} (h : c.isDigit = true) : ¬ isspace c = true := by
  have hall : ([' ', '\t', '\n', '\x0b', '\x0c', '\r'].all fun d => !d.isDigit) = true := by decide
  intro hspace
  have hno := List.all_eq_true.mp hall c (List.contains_iff_mem.mp hspace)
  rw [h] at hno
  cases hno

/-- Digits alone are a number without a sign. -/
theorem readNumber_unsignedText (w n : ℕ) :
    readNumber (unsignedText w n) = some (false, n, []) := by
  have hread := readUnsigned_append w n stops_nil
  rw [List.append_nil] at hread
  obtain ⟨c, l, hc, hdigit⟩ := exists_cons_unsignedText w n
  have hdrop : (unsignedText w n).dropWhile isspace = unsignedText w n := by
    rw [hc]
    exact List.dropWhile_cons_of_neg (not_isspace_of_isDigit hdigit)
  have hsign : ∀ d, d.isDigit = false → (unsignedText w n).head? ≠ some d := by
    intro d hd hhead
    rw [hc] at hhead
    rw [Option.some.inj hhead, hd] at hdigit
    cases hdigit
  rw [readNumber, hdrop]
  simp only [if_neg (hsign '-' (by decide)), if_neg (hsign '+' (by decide)), hread,
    Option.map_some]

/-- What `%d` prints is read with its sign. -/
theorem readNumber_signedText (z : ℤ) :
    readNumber (signedText 0 z) = some (decide (z < 0), z.natAbs, []) := by
  rw [signedText]
  split_ifs with hz
  · have hread := readUnsigned_append (0 - 1) z.natAbs stops_nil
    rw [List.append_nil] at hread
    have hdrop : ('-' :: unsignedText (0 - 1) z.natAbs).dropWhile isspace =
        '-' :: unsignedText (0 - 1) z.natAbs := List.dropWhile_cons_of_neg (by decide)
    rw [readNumber, hdrop]
    simp only [List.head?_cons, if_pos, List.tail_cons, hread, Option.map_some, hz, decide_true]
  · rw [readNumber_unsignedText, decide_eq_false hz]

/-- **`atoi` undoes `%d`.** -/
theorem atoi_signedText {z : ℤ} (hmin : -2 ^ 31 ≤ z) (hmax : z < 2 ^ 31) :
    atoi (signedText 0 z) = z := by
  have hlong : strtol (signedText 0 z) = z := by
    rw [strtol, readNumber_signedText]
    by_cases hz : z < 0 <;> simp only [hz, decide_true, decide_false] <;> omega
  rw [atoi, hlong, toInt_eq_self hmin hmax]

example : atoi " -4294967289 s".toList = 7 := by decide

/-! ### Bounds -/

/-- `number_range_error_handler`: the message with which the program ends. -/
def numberRangeErrorHandler (min max value : ℤ) (msg : List Char) : Except (List Char) Unit :=
  if value < min then
    .error (msg ++ " can't be lower than ".toList ++ signedText 0 min ++ "\n".toList)
  else if max < value then
    .error (msg ++ " can't be higher than ".toList ++ signedText 0 max ++ "\n".toList)
  else .ok ()

/-- A parameter of a program: its bounds, which are of type `int`, and how the messages call
it. -/
structure Parametro where
  min : ℤ
  max : ℤ
  msg : List Char
  hmin : -2 ^ 31 ≤ min
  hmax : max < 2 ^ 31

/-- Within the bounds. -/
def Parametro.Admite (p : Parametro) (v : ℤ) : Prop := p.min ≤ v ∧ v ≤ p.max

/-- `v = atoi(arg)`, checked. -/
def Parametro.lee (p : Parametro) (arg : List Char) : Except (List Char) ℤ := do
  numberRangeErrorHandler p.min p.max (atoi arg) p.msg
  return atoi arg

/-- The parameters of a program, read and checked one after the other. -/
def leeTodos : List Parametro → List (List Char) → Except (List Char) (List ℤ)
  | p :: ps, arg :: args => do
    let v ← p.lee arg
    let vs ← leeTodos ps args
    return v :: vs
  | _, _ => .ok []

/-- A program that takes these parameters, and prints `uso` where their number is wrong. -/
def programa (uso : List Char) (ps : List Parametro) (argv : List (List Char)) :
    Except (List Char) (List ℤ) :=
  if argv.length ≠ ps.length then .error uso else leeTodos ps argv

theorem handler_ok_iff {min max value : ℤ} {msg : List Char} :
    numberRangeErrorHandler min max value msg = .ok () ↔ min ≤ value ∧ value ≤ max := by
  unfold numberRangeErrorHandler
  split_ifs with h₁ h₂
  · simp only [false_iff]
    omega
  · simp only [false_iff]
    omega
  · simp only [true_iff]
    omega

theorem bind_ok_iff {ε α β : Type} {x : Except ε α} {f : α → Except ε β} {b : β} :
    (x >>= f) = .ok b ↔ ∃ a, x = .ok a ∧ f a = .ok b := by
  cases x with
  | error e =>
    constructor
    · rintro ⟨⟩
    · rintro ⟨_, ⟨⟩, _⟩
  | ok a =>
    constructor
    · intro h
      exact ⟨a, rfl, h⟩
    · rintro ⟨_, ⟨⟩, h⟩
      exact h

theorem Parametro.lee_ok_iff {p : Parametro} {arg : List Char} {v : ℤ} :
    p.lee arg = .ok v ↔ atoi arg = v ∧ p.Admite v := by
  rw [Parametro.lee, bind_ok_iff]
  constructor
  · rintro ⟨_, hok, ⟨⟩⟩
    exact ⟨rfl, handler_ok_iff.mp hok⟩
  · rintro ⟨rfl, hv⟩
    exact ⟨(), handler_ok_iff.mpr hv, rfl⟩

/-- **What can be passed.** The values a user can pass to the parameters are those within their
bounds. -/
theorem exists_leeTodos_iff (ps : List Parametro) (vs : List ℤ) :
    (∃ argv, argv.length = ps.length ∧ leeTodos ps argv = .ok vs) ↔
      List.Forall₂ Parametro.Admite ps vs := by
  constructor
  · rintro ⟨argv, hlen, hok⟩
    induction ps generalizing argv vs with
    | nil =>
      cases hok
      exact .nil
    | cons p ps ih =>
      obtain ⟨arg, args, rfl⟩ := List.exists_cons_of_length_eq_add_one hlen
      rw [leeTodos, bind_ok_iff] at hok
      obtain ⟨v, hv, hrest⟩ := hok
      obtain ⟨ws, hws, hret⟩ := bind_ok_iff.mp hrest
      cases hret
      exact .cons (Parametro.lee_ok_iff.mp hv).2 (ih ws args (Nat.succ.inj hlen) hws)
  · intro h
    -- the values printed in decimal are a command line
    refine ⟨vs.map (signedText 0), by rw [List.length_map, h.length_eq], ?_⟩
    induction h with
    | nil => rfl
    | @cons p v ps vs hv _ ih =>
      have hatoi : atoi (signedText 0 v) = v :=
        atoi_signedText (p.hmin.trans hv.1) (hv.2.trans_lt p.hmax)
      rw [List.map_cons, leeTodos, Parametro.lee_ok_iff.mpr ⟨hatoi, hv⟩, ih]
      rfl

/-- A program with these parameters can be started with the values within their bounds. -/
theorem exists_programa_iff (uso : List Char) (ps : List Parametro) (vs : List ℤ) :
    (∃ argv, programa uso ps argv = .ok vs) ↔ List.Forall₂ Parametro.Admite ps vs := by
  rw [← exists_leeTodos_iff]
  refine exists_congr fun argv => ?_
  unfold programa
  split_ifs with hlen
  · simp [hlen]
  · simp [not_not.mp hlen]

/-- A refusal names a parameter whose argument is out of its bounds. -/
theorem leeTodos_error {ps : List Parametro} {argv : List (List Char)} {e : List Char}
    (h : leeTodos ps argv = .error e) :
    ∃ p ∈ ps, ∃ arg ∈ argv, ¬ p.Admite (atoi arg) ∧ p.msg <+: e := by
  induction ps generalizing argv with
  | nil => cases h
  | cons p ps ih =>
    cases argv with
    | nil => cases h
    | cons arg args =>
      by_cases hv : p.Admite (atoi arg)
      · rw [leeTodos, Parametro.lee_ok_iff.mpr ⟨rfl, hv⟩] at h
        cases hrest : leeTodos ps args with
        | error e' =>
          rw [hrest] at h
          cases h
          obtain ⟨q, hq, b, hb, hno⟩ := ih hrest
          exact ⟨q, List.mem_cons_of_mem _ hq, b, List.mem_cons_of_mem _ hb, hno⟩
        | ok vs =>
          rw [hrest] at h
          cases h
      · refine ⟨p, List.mem_cons_self, arg, List.mem_cons_self, hv, ?_⟩
        rw [leeTodos, Parametro.lee] at h
        unfold numberRangeErrorHandler at h
        split_ifs at h with hlow hhigh
        · cases h
          simp only [List.append_assoc]
          exact List.prefix_append _ _
        · cases h
          simp only [List.append_assoc]
          exact List.prefix_append _ _
        · exact absurd ⟨not_lt.mp hlow, not_lt.mp hhigh⟩ hv

/-! ### The programs -/

/-- `main` of `mrush`: target, cycles and threads. -/
def mrush : List (List Char) → Except (List Char) (List ℤ) :=
  programa
    ("No se ha pasado el numero correcto de argumentos\n".toList ++
      "El formato correcto es:\n".toList ++
      "./programa <Target inicial> <Num_ciclos> <Num_hilos>".toList)
    [⟨0, POW_LIMIT - 1, "Target".toList, by decide, by decide⟩,
      ⟨1, 50, "Number of cycles".toList, by decide, by decide⟩,
      ⟨1, 100, "Number of threads".toList, by decide, by decide⟩]

/-- `main` of `voting`: processes and seconds. -/
def voting : List (List Char) → Except (List Char) (List ℤ) :=
  programa "Correct format: ./voting <N_PROCS> <N_SECS>\n".toList
    [⟨1, 100, "Number of processes".toList, by decide, by decide⟩,
      ⟨1, 60, "Number of seconds".toList, by decide, by decide⟩]

/-- `main` of the miner of the final project: seconds and threads. -/
def minero : List (List Char) → Except (List Char) (List ℤ) :=
  programa
    ("No se ha pasado el numero correcto de argumentos\n".toList ++
      "El formato correcto es:\n".toList ++ "./miner <N_SECONDS> <N_THREADS>\n".toList ++
      "\n".toList)
    [⟨1, 120, "Number of seconds".toList, by decide, by decide⟩,
      ⟨1, 100, "Number of threads".toList, by decide, by decide⟩]

/-- `lag = (unsigned int)strtoul(arg, &strptr, 10)`, checked. -/
def leeLag (arg : List Char) : Except (List Char) ℕ :=
  if (strtoul arg).2 ≠ [] then
    .error ("Valor inválido: '".toList ++ (strtoul arg).2 ++ "' no es un numero\n".toList)
  else do
    numberRangeErrorHandler 0 10000 (toInt ((strtoul arg).1 % 2 ^ 32 : ℕ)) "Lag".toList
    return (strtoul arg).1 % 2 ^ 32

/-- `main` of the monitor of the third practice: the lag. -/
def p3Monitor : List (List Char) → Except (List Char) ℕ
  | [arg] => leeLag arg
  | _ => .error ("No se ha pasado el numero correcto de argumentos\n".toList ++
      "El formato correcto es:\n".toList ++ "./monitor <LAG>\n".toList ++
      "El lag se medira en milisegundos, maximo 10000\n".toList)

/-- The rounds of the third practice. -/
def rondas : Parametro := ⟨1, 200, "Number of cycles".toList, by decide, by decide⟩

/-- `main` of the miner of the third practice: rounds and lag. The lag is read from the argument
of the rounds, and stored in an `int`. -/
def p3Minero : List (List Char) → Except (List Char) (ℤ × ℤ)
  | [rounds, _] => do
    let n ← rondas.lee rounds
    let lag ← leeLag rounds
    return (n, toInt lag)
  | _ => .error ("No se ha pasado el numero correcto de argumentos\n".toList ++
      "El formato correcto es:\n".toList ++ "./miner <ROUNDS> <LAG>\n".toList ++
      "El lag se medira en milisegundos, maximo 10000\n".toList)

/-! ### The lag -/

theorem toInt_congr {x y : ℤ} (h : x % 2 ^ 32 = y % 2 ^ 32) : toInt x = toInt y := by
  have hbmod : ∀ z : ℤ, z.bmod (2 ^ 32) = (z % 2 ^ 32).bmod (2 ^ 32) := fun z => by
    rw [← Int.emod_bmod]
    rfl
  rw [toInt, toInt, hbmod x, hbmod y, h]

theorem leeLag_ok_iff {arg : List Char} {lag : ℕ} : leeLag arg = .ok lag ↔
    (strtoul arg).2 = [] ∧ (strtoul arg).1 % 2 ^ 32 = lag ∧ 0 ≤ toInt lag ∧ toInt lag ≤ 10000 := by
  unfold leeLag
  split_ifs with hrest
  · simp [hrest]
  · rw [bind_ok_iff]
    constructor
    · rintro ⟨_, hok, ⟨⟩⟩
      exact ⟨not_not.mp hrest, rfl, handler_ok_iff.mp hok⟩
    · rintro ⟨-, rfl, hv⟩
      exact ⟨(), handler_ok_iff.mpr hv, rfl⟩

/-- Where `atoi` gives a positive number, `strtoul` gives the same one as an `int`: what the two
limit to their ranges is `0` or `-1` for `atoi`. -/
theorem toInt_strtoul {arg : List Char} (h : 1 ≤ atoi arg) :
    toInt ((strtoul arg).1 % 2 ^ 32 : ℕ) = atoi arg := by
  rw [atoi, strtol] at h ⊢
  rw [strtoul]
  cases hread : readNumber arg with
  | none =>
    rw [hread] at h
    exact absurd h (by decide)
  | some p =>
    obtain ⟨neg, n, r⟩ := p
    rw [hread] at h
    cases neg with
    | false =>
      dsimp only at h ⊢
      by_cases hn : 2 ^ 63 - 1 ≤ (n : ℤ)
      · rw [min_eq_left hn] at h
        exact absurd h (by decide)
      · rw [min_eq_right (by omega), if_neg (by omega), if_neg Bool.false_ne_true]
        exact toInt_congr (by omega)
    | true =>
      dsimp only at h ⊢
      by_cases hn : (-n : ℤ) ≤ -2 ^ 63
      · rw [max_eq_left hn] at h
        exact absurd h (by decide)
      · rw [max_eq_right (by omega), if_neg (by omega), if_pos rfl]
        exact toInt_congr (by omega)

/-- Digits alone are read whole. -/
theorem strtoul_unsignedText {n : ℕ} (hn : n < 2 ^ 64) : strtoul (unsignedText 0 n) = (n, []) := by
  rw [strtoul, readNumber_unsignedText]
  dsimp only
  rw [if_neg (by omega), if_neg Bool.false_ne_true]

theorem toInt_natCast {n : ℕ} (hn : n < 2 ^ 31) : toInt n = n :=
  toInt_eq_self (by omega) (by omega)

/-- A lag that the check lets pass is at most `MAX_LAG`; the conversion to `int` makes the larger
half of the `unsigned int` values negative, and the check refuses them too. -/
theorem toInt_lag_iff {lag : ℕ} (hlag : lag < 2 ^ 32) :
    (0 ≤ toInt lag ∧ toInt lag ≤ 10000) ↔ lag ≤ 10000 := by
  by_cases hn : lag < 2 ^ 31
  · rw [toInt_natCast hn]
    omega
  · have hneg : toInt lag = lag - 2 ^ 32 := by
      rw [toInt_congr (y := lag - 2 ^ 32) (by omega)]
      exact toInt_eq_self (by omega) (by omega)
    omega

/-- The monitor of the third practice can be started with the lags up to `MAX_LAG`. -/
theorem exists_p3Monitor_iff {lag : ℕ} : (∃ argv, p3Monitor argv = .ok lag) ↔ lag ≤ 10000 := by
  constructor
  · rintro ⟨argv, hok⟩
    match argv with
    | [arg] =>
      obtain ⟨-, hlag, hv⟩ := leeLag_ok_iff.mp hok
      exact (toInt_lag_iff (hlag ▸ Nat.mod_lt _ (by decide))).mp hv
  · intro hlag
    refine ⟨[unsignedText 0 lag], leeLag_ok_iff.mpr ?_⟩
    rw [strtoul_unsignedText (by omega)]
    exact ⟨rfl, Nat.mod_eq_of_lt (by omega), (toInt_lag_iff (by omega)).mpr hlag⟩

/-- The miner of the third practice can be started with a lag equal to its rounds only. -/
theorem exists_p3Minero_iff {n lag : ℤ} :
    (∃ argv, p3Minero argv = .ok (n, lag)) ↔ rondas.Admite n ∧ lag = n := by
  constructor
  · rintro ⟨argv, hok⟩
    match argv with
    | [rounds, _] =>
      obtain ⟨m, hm, hrest⟩ := bind_ok_iff.mp hok
      obtain ⟨l, hl, hret⟩ := bind_ok_iff.mp hrest
      cases hret
      obtain ⟨rfl, hadm⟩ := Parametro.lee_ok_iff.mp hm
      obtain ⟨-, rfl, -⟩ := leeLag_ok_iff.mp hl
      exact ⟨hadm, toInt_strtoul hadm.1⟩
  · rintro ⟨hadm, rfl⟩
    obtain ⟨hmin, hmax⟩ : 1 ≤ lag ∧ lag ≤ 200 := hadm
    obtain ⟨k, rfl⟩ := Int.eq_ofNat_of_zero_le (hmin.trans' (by decide))
    have hk : k < 2 ^ 31 := by omega
    have harg : signedText 0 k = unsignedText 0 k := by
      rw [signedText, if_neg (by omega), Int.natAbs_natCast]
    have hatoi : atoi (unsignedText 0 k) = k := by
      rw [← harg]
      exact atoi_signedText (by omega) (by omega)
    have hlag : leeLag (unsignedText 0 k) = .ok k := by
      refine leeLag_ok_iff.mpr ?_
      rw [strtoul_unsignedText (by omega)]
      exact ⟨rfl, Nat.mod_eq_of_lt (by omega), (toInt_lag_iff (by omega)).mpr (by omega)⟩
    refine ⟨[unsignedText 0 k, []], ?_⟩
    refine bind_ok_iff.mpr ⟨k, Parametro.lee_ok_iff.mpr ⟨hatoi, hmin, hmax⟩, ?_⟩
    refine bind_ok_iff.mpr ⟨k, hlag, ?_⟩
    rw [toInt_natCast hk]
    rfl

/-- **The configurations.** A user can start each program with the values within the bounds of
its parameters and with no others. The lag of the miner of the third practice is no parameter of
its own: it equals the number of rounds, whatever is passed for it. -/
theorem configuraciones :
    (∀ vs, (∃ argv, mrush argv = .ok vs) ↔ ∃ target cycles threads : ℤ, vs =
        [target, cycles, threads] ∧ (0 ≤ target ∧ target < POW_LIMIT) ∧
        (1 ≤ cycles ∧ cycles ≤ 50) ∧ 1 ≤ threads ∧ threads ≤ 100) ∧
      (∀ vs, (∃ argv, voting argv = .ok vs) ↔ ∃ procs secs : ℤ, vs = [procs, secs] ∧
        (1 ≤ procs ∧ procs ≤ 100) ∧ 1 ≤ secs ∧ secs ≤ 60) ∧
      (∀ vs, (∃ argv, minero argv = .ok vs) ↔ ∃ seconds threads : ℤ, vs = [seconds, threads] ∧
        (1 ≤ seconds ∧ seconds ≤ 120) ∧ 1 ≤ threads ∧ threads ≤ 100) ∧
      (∀ lag, (∃ argv, p3Monitor argv = .ok lag) ↔ lag ≤ 10000) ∧
      ∀ n lag, (∃ argv, p3Minero argv = .ok (n, lag)) ↔ (1 ≤ n ∧ n ≤ 200) ∧ lag = n := by
  refine ⟨fun vs => ?_, fun vs => ?_, fun vs => ?_, fun lag => exists_p3Monitor_iff,
    fun n lag => exists_p3Minero_iff⟩
  · rw [mrush, exists_programa_iff]
    simp only [List.forall₂_cons_left_iff, List.forall₂_nil_left_iff]
    constructor
    · rintro ⟨t, _, ht, ⟨c, _, hc, ⟨n, _, hn, rfl, rfl⟩, rfl⟩, rfl⟩
      exact ⟨t, c, n, rfl, ⟨ht.1, Int.lt_of_le_sub_one ht.2⟩, hc, hn⟩
    · rintro ⟨t, c, n, rfl, ht, hc, hn⟩
      exact ⟨t, _, ⟨ht.1, Int.le_sub_one_of_lt ht.2⟩, ⟨c, _, hc, ⟨n, _, hn, rfl, rfl⟩, rfl⟩, rfl⟩
  · rw [voting, exists_programa_iff]
    simp only [List.forall₂_cons_left_iff, List.forall₂_nil_left_iff]
    constructor
    · rintro ⟨p, _, hp, ⟨s, _, hs, rfl, rfl⟩, rfl⟩
      exact ⟨p, s, rfl, hp, hs⟩
    · rintro ⟨p, s, rfl, hp, hs⟩
      exact ⟨p, _, hp, ⟨s, _, hs, rfl, rfl⟩, rfl⟩
  · rw [minero, exists_programa_iff]
    simp only [List.forall₂_cons_left_iff, List.forall₂_nil_left_iff]
    constructor
    · rintro ⟨s, _, hs, ⟨n, _, hn, rfl, rfl⟩, rfl⟩
      exact ⟨s, n, rfl, hs, hn⟩
    · rintro ⟨s, n, rfl, hs, hn⟩
      exact ⟨s, _, hs, ⟨n, _, hn, rfl, rfl⟩, rfl⟩

end Soper.Argumentos
