import Mathlib.Data.List.Infix
import SqlCatalog.Connection

/-!
# What arguments tell of a connection

The dump tool is told of a connection by its arguments. Host, port and user stand behind names of
their own, in this order, and the database stands behind all of them without one:

| parameter | its argument |
|---|---|
| host | `--host=` and the host |
| port | `--port=` and the number of the port |
| user | `--username=` and the user |
| database | the database |

No name begins another, so the arguments of host, port and user tell what these are
(`SqlCatalog.Connection.optionArguments_inj`). The database is told by its place alone, and a
database that reads like the argument of an option *poses* as that option
(`SqlCatalog.Connection.PosesAs`). There is no other way in which connections that differ in one
of the four have the same arguments (`SqlCatalog.Connection.arguments_eq_iff`).
-/

namespace SqlCatalog

open Text

namespace Connection

variable {name name' option : String} {first first' host host' user user' : Option String}
  {others others' : List String} {port port' : Option UInt16} {connection other : Connection}

/-! ### Options -/

/-- The argument of an option, if it is given. -/
def given (name : String) (value : Option String) : List String :=
  (value.map (name ++ ·)).toList

/-- **The arguments of host, port and user.** -/
def optionArguments (host : Option String) (port : Option UInt16) (user : Option String) :
    List String :=
  given "--host=" host ++ (given "--port=" (port.map fun port => toString port.toNat) ++
    given "--username=" user)

/-- The database stands behind them. -/
theorem arguments_eq (connection : Connection) :
    connection.arguments = ["--schema-only", "--no-owner"] ++
      (optionArguments connection.host connection.port connection.user ++
        connection.database.toList) := by
  simp only [arguments, optionArguments, given, Option.map_map, List.append_assoc]
  rfl

/-- An argument that begins with the name of an option. -/
def BeginsWith (name argument : String) : Prop :=
  name.toList <+: argument.toList

instance (name argument : String) : Decidable (BeginsWith name argument) :=
  inferInstanceAs (Decidable (_ <+: _))

theorem beginsWith_append (name value : String) : BeginsWith name (name ++ value) := by
  rw [BeginsWith, String.toList_append]
  exact List.prefix_append _ _

/-- An option begins with its own name only, when that neither begins another nor begins with
it. -/
theorem not_beginsWith_of_mem_given (h : ¬BeginsWith name name') (h' : ¬BeginsWith name' name) :
    ∀ argument ∈ given name' first, ¬BeginsWith name argument := by
  intro argument hmem hname
  obtain ⟨value, -, rfl⟩ := Option.map_eq_some_iff.mp (Option.mem_toList.mp hmem)
  rcases List.prefix_or_prefix_of_prefix hname (beginsWith_append name' value) with hpre | hpre
  · exact h hpre
  · exact h' hpre

/-- **Whether an option is given, and how**, is told by the arguments that it heads, when none
behind it begins with its name. -/
theorem given_append_inj (h : ∀ argument ∈ others, ¬BeginsWith name argument)
    (h' : ∀ argument ∈ others', ¬BeginsWith name argument)
    (he : given name first ++ others = given name first' ++ others') :
    first = first' ∧ others = others' := by
  cases first with
  | none =>
    cases first' with
    | none => exact ⟨rfl, he⟩
    | some value =>
      obtain rfl : others = (name ++ value) :: others' := he
      exact absurd (beginsWith_append name value) (h _ List.mem_cons_self)
  | some value =>
    cases first' with
    | none =>
      obtain rfl : (name ++ value) :: others = others' := he
      exact absurd (beginsWith_append name value) (h' _ List.mem_cons_self)
    | some value' =>
      obtain ⟨hvalue, hothers⟩ := List.cons.inj he
      exact ⟨congrArg some ((String.append_right_inj name).mp hvalue), hothers⟩

/-- Digits write no plus sign. -/
theorem dropPlus_of_isDigit {digits : List Char} (h : ∀ c ∈ digits, c.isDigit) :
    dropPlus digits = digits := by
  cases digits with
  | nil => rfl
  | cons c digits =>
    have hplus : c ≠ '+' := by
      rintro rfl
      exact absurd (h _ List.mem_cons_self) (by decide)
    exact if_neg hplus

/-- **A port is read back from its number.** -/
theorem portNumber?_toString (port : UInt16) : portNumber? (toString port.toNat) = some port := by
  have hdigits : ∀ c ∈ Nat.toDigits 10 port.toNat, c.isDigit := fun c hc =>
    Nat.isDigit_of_mem_toDigits (by decide) (by decide) hc
  have hdecimal : decimal (Nat.toDigits 10 port.toNat) = port.toNat := by
    have hread := @Nat.ofDigitChars_ten_toDigits port.toNat
    simp only [Nat.ofDigitChars_eq_foldl, Nat.mul_comm 10] at hread
    exact hread
  have htext : (toString port.toNat).toList = Nat.toDigits 10 port.toNat := Nat.toList_repr
  have hbound : port.toNat < 65536 := port.toNat_lt
  rw [portNumber?, htext, dropPlus_of_isDigit hdigits, hdecimal, if_pos, UInt16.ofNat_toNat]
  simp [Nat.toDigits_ne_nil, List.all_eq_true.mpr hdigits, hbound]

/-- **Host, port and user are told by their arguments.** -/
theorem optionArguments_inj
    (h : optionArguments host port user = optionArguments host' port' user') :
    host = host' ∧ port = port' ∧ user = user' := by
  have hbehind : ∀ port user, ∀ argument ∈ given "--port=" port ++ given "--username=" user,
      ¬BeginsWith "--host=" argument := fun port user =>
    List.forall_mem_append.mpr ⟨not_beginsWith_of_mem_given (by decide) (by decide),
      not_beginsWith_of_mem_given (by decide) (by decide)⟩
  have huser : ∀ user, ∀ argument ∈ given "--username=" user, ¬BeginsWith "--port=" argument :=
    fun user => not_beginsWith_of_mem_given (by decide) (by decide)
  obtain ⟨rfl, hothers⟩ := given_append_inj (hbehind _ _) (hbehind _ _) h
  obtain ⟨hport, hothers⟩ := given_append_inj (huser _) (huser _) hothers
  have hend : given "--username=" user ++ [] = given "--username=" user' ++ [] := by
    rw [List.append_nil, List.append_nil, hothers]
  have hnumber : ∀ ⦃p q : UInt16⦄, toString p.toNat = toString q.toNat → p = q := fun p q hpq =>
    Option.some.inj (by rw [← portNumber?_toString p, ← portNumber?_toString q, hpq])
  exact ⟨rfl, Option.map_injective hnumber hport,
    (given_append_inj (List.forall_mem_nil _) (List.forall_mem_nil _) hend).1⟩

/-! ### Databases that read like options -/

/-- **Two connections with the same parameters**, the tool and the password apart. -/
def IsSameTarget (connection other : Connection) : Prop :=
  connection.host = other.host ∧ connection.port = other.port ∧ connection.user = other.user ∧
    connection.database = other.database

instance (connection other : Connection) : Decidable (IsSameTarget connection other) :=
  inferInstanceAs (Decidable (_ ∧ _))

/-- **A database that poses as an option.** The other connection has no database, and the last of
its options is not given here: the database is what its argument would be. -/
inductive PosesAs (connection other : Connection) : Prop
  /-- It poses as the user. -/
  | user (user : String) (hhost : connection.host = other.host)
    (hport : connection.port = other.port) (huser : connection.user = none)
    (huser' : other.user = some user)
    (hdatabase : connection.database = some ("--username=" ++ user))
    (hdatabase' : other.database = none) : PosesAs connection other
  /-- It poses as the port. -/
  | port (port : UInt16) (hhost : connection.host = other.host) (hport : connection.port = none)
    (hport' : other.port = some port) (huser : connection.user = none) (huser' : other.user = none)
    (hdatabase : connection.database = some ("--port=" ++ toString port.toNat))
    (hdatabase' : other.database = none) : PosesAs connection other
  /-- It poses as the host. -/
  | host (host : String) (hhost : connection.host = none) (hhost' : other.host = some host)
    (hport : connection.port = none) (hport' : other.port = none) (huser : connection.user = none)
    (huser' : other.user = none) (hdatabase : connection.database = some ("--host=" ++ host))
    (hdatabase' : other.database = none) : PosesAs connection other

/-- A database that begins with the name of an option. -/
def IsOptionLike (database : String) : Prop :=
  ∃ name ∈ ["--host=", "--port=", "--username="], BeginsWith name database

instance (database : String) : Decidable (IsOptionLike database) :=
  inferInstanceAs (Decidable (∃ name ∈ _, _))

/-- A database that poses begins with the name of an option. -/
theorem PosesAs.exists_isOptionLike (h : PosesAs connection other) :
    ∃ database ∈ connection.database, IsOptionLike database := by
  cases h with
  | user user _ _ _ _ h => exact ⟨_, h, _, by simp, beginsWith_append "--username=" user⟩
  | port port _ _ _ _ _ h => exact ⟨_, h, _, by simp, beginsWith_append "--port=" _⟩
  | host host _ _ _ _ _ _ h => exact ⟨_, h, _, by simp, beginsWith_append "--host=" host⟩

/-- The arguments are those of the options and one more. -/
theorem PosesAs.arguments_eq (h : PosesAs connection other) :
    connection.arguments = other.arguments := by
  rw [Connection.arguments_eq, Connection.arguments_eq]
  cases h with
  | user user hhost hport huser huser' hdatabase hdatabase' =>
    rw [hhost, hport, huser, huser', hdatabase, hdatabase']
    simp [optionArguments, given]
  | port port hhost hport hport' huser huser' hdatabase hdatabase' =>
    rw [hhost, hport, hport', huser, huser', hdatabase, hdatabase']
    simp [optionArguments, given]
  | host host hhost hhost' hport hport' huser huser' hdatabase hdatabase' =>
    rw [hhost, hhost', hport, hport', huser, huser', hdatabase, hdatabase']
    simp [optionArguments, given]

/-- **A database that stands where the other connection has an option** poses as the last of its
options. -/
theorem posesAs_of_optionArguments (hdatabase : connection.database = some option)
    (hdatabase' : other.database = none)
    (h : optionArguments connection.host connection.port connection.user ++ [option] =
      optionArguments other.host other.port other.user) : PosesAs connection other := by
  -- the last option of the other connection comes off, and so does the database
  have hlast : ∀ {host port user argument},
      optionArguments other.host other.port other.user =
        optionArguments host port user ++ [argument] →
      option = argument ∧ connection.host = host ∧ connection.port = port ∧
        connection.user = user := by
    intro host port user argument hother
    obtain ⟨hoptions, hargument⟩ := List.append_inj' (h.trans hother) rfl
    exact ⟨List.singleton_inj.mp hargument, optionArguments_inj hoptions⟩
  cases huser' : other.user with
  | some user =>
    have hother : optionArguments other.host other.port other.user =
        optionArguments other.host other.port none ++ ["--username=" ++ user] := by
      simp [huser', optionArguments, given]
    obtain ⟨rfl, hhost, hport, huser⟩ := hlast hother
    exact .user user hhost hport huser huser' hdatabase hdatabase'
  | none =>
    cases hport' : other.port with
    | some port =>
      have hother : optionArguments other.host other.port other.user =
          optionArguments other.host none none ++ ["--port=" ++ toString port.toNat] := by
        simp [huser', hport', optionArguments, given]
      obtain ⟨rfl, hhost, hport, huser⟩ := hlast hother
      exact .port port hhost hport hport' huser huser' hdatabase hdatabase'
    | none =>
      cases hhost' : other.host with
      | some host =>
        have hother : optionArguments other.host other.port other.user =
            optionArguments none none none ++ ["--host=" ++ host] := by
          simp [huser', hport', hhost', optionArguments, given]
        obtain ⟨rfl, hhost, hport, huser⟩ := hlast hother
        exact .host host hhost hhost' hport hport' huser huser' hdatabase hdatabase'
      | none =>
        rw [huser', hport', hhost'] at h
        exact absurd (List.append_eq_nil_iff.mp h).2 (List.cons_ne_nil _ _)

/-! ### Connections with the same arguments -/

theorem IsSameTarget.arguments_eq (h : IsSameTarget connection other) :
    connection.arguments = other.arguments := by
  obtain ⟨hhost, hport, huser, hdatabase⟩ := h
  rw [Connection.arguments_eq, Connection.arguments_eq, hhost, hport, huser, hdatabase]

/-- **Connections with the same arguments** have the same parameters, unless the database of one
poses as an option of the other. -/
theorem isSameTarget_or_posesAs (h : connection.arguments = other.arguments) :
    IsSameTarget connection other ∨ PosesAs connection other ∨ PosesAs other connection := by
  rw [arguments_eq, arguments_eq] at h
  have hbehind := List.append_cancel_left h
  cases hdatabase : connection.database with
  | none =>
    cases hdatabase' : other.database with
    | none =>
      rw [hdatabase, hdatabase', Option.toList_none, List.append_nil, List.append_nil] at hbehind
      obtain ⟨hhost, hport, huser⟩ := optionArguments_inj hbehind
      exact Or.inl ⟨hhost, hport, huser, hdatabase.trans hdatabase'.symm⟩
    | some option =>
      rw [hdatabase, hdatabase', Option.toList_none, List.append_nil] at hbehind
      exact Or.inr (Or.inr (posesAs_of_optionArguments hdatabase' hdatabase hbehind.symm))
  | some option =>
    cases hdatabase' : other.database with
    | none =>
      rw [hdatabase, hdatabase', Option.toList_none, List.append_nil] at hbehind
      exact Or.inr (Or.inl (posesAs_of_optionArguments hdatabase hdatabase' hbehind))
    | some option' =>
      rw [hdatabase, hdatabase'] at hbehind
      obtain ⟨hoptions, hoption⟩ := List.append_inj' hbehind rfl
      obtain ⟨hhost, hport, huser⟩ := optionArguments_inj hoptions
      refine Or.inl ⟨hhost, hport, huser, ?_⟩
      rw [hdatabase, hdatabase', List.singleton_inj.mp hoption]

/-- **What arguments tell of a connection.** Two connections have the same arguments exactly when
host, port, user and database are the same, or when the database of one poses as the last option
of the other, which has no database. So they tell all four of a connection where no database
begins with the name of an option. -/
theorem arguments_eq_iff (connection other : Connection) :
    (connection.arguments = other.arguments ↔
      IsSameTarget connection other ∨ PosesAs connection other ∨ PosesAs other connection) ∧
    ((∀ database ∈ connection.database, ¬IsOptionLike database) →
      (∀ database ∈ other.database, ¬IsOptionLike database) →
        connection.arguments = other.arguments → IsSameTarget connection other) := by
  refine ⟨⟨isSameTarget_or_posesAs, ?_⟩, fun hno hno' h => ?_⟩
  · rintro (hsame | hposes | hposes)
    · exact hsame.arguments_eq
    · exact hposes.arguments_eq
    · exact hposes.arguments_eq.symm
  · rcases isSameTarget_or_posesAs h with hsame | hposes | hposes
    · exact hsame
    · obtain ⟨database, hmem, hlike⟩ := hposes.exists_isOptionLike
      exact absurd hlike (hno database hmem)
    · obtain ⟨database, hmem, hlike⟩ := hposes.exists_isOptionLike
      exact absurd hlike (hno' database hmem)

/-- Two connections to a shop, one of them with a password. -/
theorem arguments_tell_shop :
    let connection : Connection :=
      { host := some "db.internal", port := some 5433, database := some "shop" }
    let other : Connection := { connection with password := some "secret" }
    (∀ database ∈ connection.database, ¬IsOptionLike database) ∧
      (∀ database ∈ other.database, ¬IsOptionLike database) ∧
      connection.arguments = other.arguments ∧ IsSameTarget connection other := by
  intro connection other
  have hno : ∀ database ∈ connection.database, ¬IsOptionLike database := by decide
  exact ⟨hno, hno, rfl, (arguments_eq_iff connection other).2 hno hno rfl⟩

/-- **A database can pose as a host**: its name is then the argument by which the dump tool is told
of the host. -/
theorem database_poses_as_host :
    let connection : Connection := { database := some "--host=db.internal" }
    let other : Connection := { host := some "db.internal" }
    connection.arguments = other.arguments ∧ connection.host ≠ other.host ∧
      connection.database ≠ other.database := by
  decide

end Connection

end SqlCatalog
