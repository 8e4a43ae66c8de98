import Tiko.Model.Keys

/-!
# Errors and the object storage interface

* `Error`: the kinds of `core::error::Error` that the code distinguishes;
* `ObjectStorage`: the reading half of the trait of the same name.
-/

namespace Tiko

/-- A Rust string, as its characters. Every string below is ASCII. -/
abbrev Str := List Char

/-- A byte buffer. -/
abbrev Bytes := List UInt8

/-- `Error`: `is_not_found` tells `notFound` from the rest. -/
inductive Error where
  /-- `Error::Io` of kind `NotFound`. -/
  | notFound
  /-- `Error::Io` of kind `InvalidData`, and the decode errors. -/
  | invalidData
  /-- Any other error of a storage, file or process operation. -/
  | io
  deriving DecidableEq, Repr

/-- `Error::is_not_found`. -/
def Error.isNotFound : Error → Bool
  | .notFound => true
  | _ => false

/-- `ObjectStorage::get` and `ObjectStorage::list_prefix`. -/
structure ObjectStorage where
  get : Str → Except Error Bytes
  listPrefix : Str → Except Error (List Str)

end Tiko
