/-! # Blank characters, and cutting a text at them

Blank are the 25 code points with the property `White_Space`. -/
namespace ConsoleBridge.Blank

def holds (c : Char) : Bool :=
  let n := c.toNat
  (9 ≤ n && n ≤ 13) || n == 0x20 || n == 0x85 || n == 0xA0 || n == 0x1680 ||
    (0x2000 ≤ n && n ≤ 0x200A) || n == 0x2028 || n == 0x2029 || n == 0x202F || n == 0x205F ||
    n == 0x3000

def trim (cs : List Char) : List Char :=
  ((cs.dropWhile holds).reverse.dropWhile holds).reverse

def words (cs : List Char) : List (List Char) :=
  match _h : cs.dropWhile holds with
  | [] => []
  | c :: rest =>
    (c :: rest.takeWhile (!holds ·)) :: words (rest.dropWhile (!holds ·))
termination_by cs.length
decreasing_by
  have h₁ := (List.dropWhile_suffix (l := cs) holds).length_le
  have h₂ := (List.dropWhile_suffix (l := rest) (!holds ·)).length_le
  rw [_h, List.length_cons] at h₁
  omega

end ConsoleBridge.Blank
