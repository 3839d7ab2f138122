import Mathlib.Data.Char
import Mathlib.Data.List.Lex
import Freehal.Lib.Duplicates
import Freehal.Lib.HashMap
import Freehal.Lib.Run
import Freehal.Lib.Text

/-!
# The key-value database in files

`BerkeleyDb.java` over databases with sorted duplicates. Texts are written in UTF-8, whose bytes
are ordered as the characters. A transaction writes through, and no call fails.
-/

namespace Freehal.Storage

open Lib (Duplicates HashMap HashOrder run)

/-- What is read back from the text of a value is the value. -/
structure Serializer (α : Type) where
  toString : α → Str
  fromString : Str → α
  fromString_toString : ∀ v, fromString (toString v) = v

/-- The databases of an environment by their names. -/
abbrev Environment := HashMap Str (Duplicates Str Str)

variable {α : Type} (ser : Serializer α)

/-! ## The operations -/

/-- A database that is not there is created. -/
def getDatabase (env : Environment) (dbname : Str) : Duplicates Str Str × Environment :=
  match HashMap.get env dbname with
  | some db => (db, env)
  | none => ([], HashMap.put env dbname [])

def set (env : Environment) (key : Str) (value : α) (dbname : Str) : Environment :=
  let (db, env) := getDatabase env dbname
  HashMap.put env dbname (db.put key (ser.toString value))

/-- The key `EVERYTHING`, which is `none` here, empties a database that is there. -/
def remove (env : Environment) (key : Option Str) (dbname : Str) : Environment :=
  match key with
  | some key =>
      let (db, env) := getDatabase env dbname
      HashMap.put env dbname (db.delete key)
  | none => if (HashMap.get env dbname).isSome then HashMap.put env dbname [] else env

def get (env : Environment) (key dbname : Str) : Option α × Environment :=
  let (db, env) := getDatabase env dbname
  ((db.get key).map ser.fromString, env)

/-- What is found for the key in the databases, one after the other, is read as one text. -/
def getAll (ord : HashOrder) (env : Environment) (key : Str) : α :=
  ser.fromString ((ord.enum env).flatMap fun e => (e.2.get key).getD [])

/-! ## Histories -/

inductive Operation (α : Type) where
  | set (key : Str) (value : α) (dbname : Str)
  | remove (key : Option Str) (dbname : Str)

def step (env : Environment) : Operation α → Environment
  | .set key value dbname => set ser env key value dbname
  | .remove key dbname => remove env key dbname

/-- One operation on the values that were set for a key and not removed since, the latest one
last. -/
def updateValues (key dbname : Str) (values : List α) : Operation α → List α
  | .set key' value dbname' => if key' = key ∧ dbname' = dbname then values ++ [value] else values
  | .remove key' dbname' =>
      if (key' = none ∨ key' = some key) ∧ dbname' = dbname then [] else values

def valuesOf (ops : List (Operation α)) (key dbname : Str) : List α :=
  ops.foldl (updateValues key dbname) []

/-- The latest value that was set for a key and not removed. -/
def latest (ops : List (Operation α)) (key dbname : Str) : Option α :=
  (valuesOf ops key dbname).getLast?

end Freehal.Storage
