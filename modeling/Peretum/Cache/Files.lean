import Peretum.Go.Header

/-!
# Cache keys and the files below the cache directory

A cache key is the hexadecimal print of a SHA-256 hash, so the path it is stored
under contains no separator and two keys never share a file. The directory is a
finite map from paths to files; only the modification time and the bytes of a
file are ever looked at.
-/

namespace Peretum.Cache

open Go

/-- A lower-case hexadecimal digit, as `fmt.Sprintf` prints a hash. -/
def isHexDigit (b : UInt8) : Bool := (0x30 ≤ b && b ≤ 0x39) || (0x61 ≤ b && b ≤ 0x66)

/-- A cache key: the 64 digits `CacheKey` returns. -/
structure Key where
  digits : Str
  /-- A SHA-256 hash has 32 bytes. -/
  length_eq : digits.length = 64
  hex : digits.all isHexDigit = true
  deriving DecidableEq

def zeroKey : Key := ⟨List.replicate 64 0x30, by decide, by decide⟩

def onesKey : Key := ⟨List.replicate 64 0x31, by decide, by decide⟩

/-- A path relative to `CacheDir`, as its components. -/
abbrev Path := List Str

/-- The extension of metadata sidecars. -/
def metaExt : Str := str ".meta"

/-- The extension of response bodies. -/
def bodyExt : Str := str ".body"

/-- `CachePath`: the first two digits name a subdirectory. -/
def cachePath (key : Key) (ext : Str) : Path :=
  [key.digits.take 2, key.digits.drop 2 ++ ext]

/-- A regular file. -/
structure File where
  data : Str
  /-- The time of the last write, in nanoseconds. -/
  modTime : Int
  deriving DecidableEq

/-- The files below `CacheDir`. -/
abbrev Disk := Map Path File

/-- `writeAtomic` at time `now`: the rename replaces the whole file. -/
def Disk.write (disk : Disk) (path : Path) (data : Str) (now : Int) : Disk :=
  disk.insert path ⟨data, now⟩

/-- `os.Remove` of a file that may be absent. -/
def Disk.remove (disk : Disk) (path : Path) : Disk := disk.erase path

/-- Remove the two files of a cache entry. -/
def Disk.removeEntry (disk : Disk) (key : Key) : Disk :=
  Disk.remove (Disk.remove disk (cachePath key metaExt)) (cachePath key bodyExt)

theorem eq_and_eq_of_cachePath {k₁ k₂ : Key} {ext₁ ext₂ : Str}
    (h : cachePath k₁ ext₁ = cachePath k₂ ext₂) : k₁ = k₂ ∧ ext₁ = ext₂ := by
  simp only [cachePath, List.cons.injEq, and_true] at h
  obtain ⟨htake, hname⟩ := h
  have hlength : (k₁.digits.drop 2).length = (k₂.digits.drop 2).length := by
    rw [List.length_drop, List.length_drop, k₁.length_eq, k₂.length_eq]
  obtain ⟨hdrop, hext⟩ := List.append_inj hname hlength
  have hdigits : k₁.digits = k₂.digits := by
    rw [← List.take_append_drop 2 k₁.digits, ← List.take_append_drop 2 k₂.digits, htake, hdrop]
  cases k₁
  cases k₂
  exact ⟨by simpa using hdigits, hext⟩

theorem cachePath_injective {k₁ k₂ : Key} {ext : Str}
    (h : cachePath k₁ ext = cachePath k₂ ext) : k₁ = k₂ := (eq_and_eq_of_cachePath h).1

theorem cachePath_meta_ne_body (k₁ k₂ : Key) : cachePath k₁ metaExt ≠ cachePath k₂ bodyExt :=
  fun h => absurd (eq_and_eq_of_cachePath h).2 (by decide)

@[simp] theorem Disk.lookup_remove (disk : Disk) (path p : Path) :
    (Disk.remove disk path).lookup p = if p = path then none else disk.lookup p := by
  split
  · next heq => subst heq; exact AList.lookup_erase _ disk
  · next hne => exact AList.lookup_erase_ne hne

@[simp] theorem Disk.lookup_write (disk : Disk) (path p : Path) (data : Str) (now : Int) :
    (Disk.write disk path data now).lookup p =
      if p = path then some ⟨data, now⟩ else disk.lookup p := by
  split
  · next heq => subst heq; exact AList.lookup_insert disk
  · next hne => exact AList.lookup_insert_ne hne

theorem Disk.lookup_meta_removeEntry (disk : Disk) (key k : Key) :
    (Disk.removeEntry disk key).lookup (cachePath k metaExt) =
      if k = key then none else disk.lookup (cachePath k metaExt) := by
  have hne := cachePath_meta_ne_body k key
  by_cases hk : k = key
  · simp [Disk.removeEntry, hk]
  · have hpath : cachePath k metaExt ≠ cachePath key metaExt :=
      fun h => hk (cachePath_injective h)
    simp [Disk.removeEntry, hk, hne, hpath]

theorem Disk.lookup_body_removeEntry (disk : Disk) (key k : Key) :
    (Disk.removeEntry disk key).lookup (cachePath k bodyExt) =
      if k = key then none else disk.lookup (cachePath k bodyExt) := by
  have hne := (cachePath_meta_ne_body key k).symm
  by_cases hk : k = key
  · simp [Disk.removeEntry, hk]
  · have hpath : cachePath k bodyExt ≠ cachePath key bodyExt :=
      fun h => hk (cachePath_injective h)
    simp [Disk.removeEntry, hk, hne, hpath]

end Peretum.Cache
