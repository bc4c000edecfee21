import KabyLake.Cache
import KabyLake.Library.Printf

/-!
# The dump of a cache

`cache_dump` and its macros of cache_mng.c. No `fprintf` fails; the result is the text. `PRIx8` and
`PRIx16` are `x` without a length modifier, so a tag is printed with all its digits.
-/

namespace KabyLake

open Printf (lowerHex)

variable {S W a t : ℕ}

/-- `PRINT_CACHE_LINE`. -/
def printCacheLine (e : CacheEntry a t) : List Char :=
  "V: ".toList ++ lowerHex 1 e.v.toNat ++ ", AGE: ".toList ++ lowerHex 1 e.age.toNat
    ++ ", TAG: 0x".toList ++ lowerHex 3 e.tag.toNat ++ ", values: ( ".toList
    ++ (List.finRange 4).flatMap (fun i => "0x".toList ++ lowerHex 8 (e.line i).toNat ++ [' '])
    ++ ")\n".toList

/-- `PRINT_INVALID_CACHE_LINE`. -/
def printInvalidCacheLine (e : CacheEntry a t) : List Char :=
  "V: ".toList ++ lowerHex 1 e.v.toNat ++ ", AGE: -, TAG: -----, values: ".toList
    ++ "( ---------- ---------- ---------- ---------- )\n".toList

/-- What `DUMP_CACHE_TYPE` prints of a way. -/
def dumpWay (index way : ℕ) (e : CacheEntry a t) : List Char :=
  lowerHex 2 way ++ "/".toList ++ lowerHex 4 index ++ ": ".toList
    ++ if e.v then printCacheLine e else printInvalidCacheLine e

/-- The `DUMP_CACHE_TYPE` macro, after the text so far. -/
def dumpCacheType (WAYS LINES : ℕ) (cache : CacheArray S W a t) (output : List Char) :
    Exec (List Char) :=
  (List.range LINES).foldlM (fun output index =>
    (List.range WAYS).foldlM (fun output way => do
      let e ← cacheEntry cache WAYS index way
      return output ++ dumpWay index way e) output) output

def cacheDump (cache : CacheArray S W a t) (cacheType : CacheT) :
    Exec (ErrorCode × List Char) := do
  let output := "WAY/LINE: V: AGE: TAG: WORDS\n".toList
  let output ← match cacheType with
    | .l1ICache => dumpCacheType 4 64 cache output
    | .l1DCache => dumpCacheType 4 64 cache output
    | .l2Cache => dumpCacheType 8 512 cache output
  return (.errNone, output ++ ['\n'])

end KabyLake
