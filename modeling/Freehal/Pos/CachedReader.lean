import Freehal.Pos.Tags
import Freehal.Index.FactIndex
import Freehal.Xml.XmlObj

/-!
# The cached reader

`DiskTagCachedReader.java`. It splits a file into files of the same base name, in directories that
depend on the first letters of the words. `none` stands for an exception.
-/

namespace Freehal.Pos

open Index (readLines toLowerCase isAsciiAlphanumeric)
open Lib (HashMap decimal)
open Xml (utf16)

/-- A file with its length in bytes. -/
structure PosFile where
  text : Str
  length : Nat

/-! ## Directories -/

/-- `new Key(word, 2)` of a text that is given by its chars. A surrogate is not kept. -/
def getKey (chars : List Nat) : Str :=
  let onlyChars := ((chars.map Char.ofNat).map toLowerCase).filter isAsciiAlphanumeric
  onlyChars.take 2 ++ List.replicate (2 - onlyChars.length) '_'

/-- `substring(0, 2)` -/
def Word.substring (word : Word) : List Nat := (word.word.flatMap utf16).take 2

/-! ## Writing the cache -/

abbrev Cache := HashMap (List Nat) (List Word)

/-- The orders of the iterations. A `Word` has the hash code of its object, so that all words of a
key are kept. -/
structure WriteOrder where
  keySet : Cache → Cache
  words : List Word → List Word
  keySet_perm : ∀ cache, (keySet cache).Perm cache
  words_perm : ∀ ws, (words ws).Perm ws

/-- The files in the directories. -/
abbrev TagFiles := Str → Option Str

def appendTo (files : TagFiles) (key text : Str) : TagFiles :=
  Function.update files key (some ((files key).getD [] ++ text))

def maxCacheSize : Nat := 1000

structure DiskTagCachedReader where
  currentCacheSize : Nat
  cache : Cache
  files : TagFiles

def Cache.put (cache : Cache) (word : Word) : Cache :=
  HashMap.put cache word.substring ((HashMap.get cache word.substring).getD [] ++ [word])

def writeKeys (ord : WriteOrder) (files : TagFiles) (cache : Cache) : TagFiles :=
  (ord.keySet cache).foldl
    (fun files e => appendTo files (getKey e.1) (writeTagsTo (ord.words e.2))) files

def DiskTagCachedReader.writeCache (ord : WriteOrder) (r : DiskTagCachedReader) :
    DiskTagCachedReader :=
  { currentCacheSize := 0, cache := [], files := writeKeys ord r.files r.cache }

def DiskTagCachedReader.addWord (ord : WriteOrder) (r : DiskTagCachedReader) (e : Str × Tags) :
    Option DiskTagCachedReader :=
  (Word.new e.1 e.2).map fun word =>
    let r := { r with
      cache := r.cache.put word
      currentCacheSize := r.currentCacheSize + 1 }
    if maxCacheSize < r.currentCacheSize then r.writeCache ord else r

/-! ## The cache directory -/

/-- What is kept of a file: its length, and the files of the same name. -/
structure CacheFiles where
  savedSize : Option Str
  tags : TagFiles

def CacheFiles.fresh : CacheFiles := ⟨none, fun _ => none⟩

def CacheFiles.add (ord : WriteOrder) (file : PosFile) (c : CacheFiles) :
    Option (Bool × CacheFiles) :=
  let size := decimal file.length
  if c.savedSize = some size then some (false, c)
  else do
    let r ← (readTags file.text).foldlM (DiskTagCachedReader.addWord ord) ⟨0, [], fun _ => none⟩
    let r := if 0 < r.cache.length then r.writeCache ord else r
    return (decide (0 < (readLines file.text).length), ⟨some size, r.files⟩)

def CacheFiles.get (c : CacheFiles) (word : Str) : Option (Option Tags) :=
  if isRejected word then none
  else some ((c.tags (getKey (word.flatMap utf16))).bind fun text =>
    (readLines text).findSome? (searchLine (word ++ ['|'])))

end Freehal.Pos
