import LeftHand.Text.Ranges

/-! Word characters: letters, digits and other numeric characters of every script, and `_`. -/

namespace LeftHand

/-- The code points of word characters, by steps. -/
def wordSteps : List Nat :=
  [48, 9, 8, 25, 5, 0, 2, 25, 48, 0, 8, 1, 2, 0, 4, 1, 2, 2, 2, 22, 2, 30, 2, 457, 5, 11, 15, 4, 8,
   0, 2, 0, 130, 4, 2, 1, 3, 3, 2, 0, 7, 0, 2, 2, 2, 0, 2, 19, 2, 82, 2, 138, 9, 165, 2, 37, 3, 0,
   7, 40, 72, 26, 5, 3, 46, 42, 22, 9, 5, 1, 2, 98, 2, 0, 16, 1, 8, 14, 3, 0, 17, 0, 2, 29, 30, 88,
   12, 0, 15, 42, 10, 1, 5, 0, 6, 21, 5, 0, 10, 0, 4, 0, 24, 24, 8, 10, 6, 23, 2, 5, 18, 41, 59, 53,
   4, 0, 19, 0, 8, 9, 5, 9, 2, 15, 5, 7, 3, 1, 3, 21, 2, 6, 2, 0, 4, 3, 4, 0, 17, 0, 14, 1, 2, 2, 5,
   11, 3, 5, 3, 0, 9, 5, 5, 1, 3, 21, 2, 6, 2, 1, 2, 1, 2, 1, 32, 3, 2, 0, 8, 9, 3, 2, 17, 8, 2, 2,
   2, 21, 2, 6, 2, 1, 2, 4, 4, 0, 19, 0, 16, 1, 5, 9, 10, 0, 12, 7, 3, 1, 3, 21, 2, 6, 2, 1, 2, 4,
   4, 0, 31, 1, 2, 2, 5, 9, 2, 6, 12, 0, 2, 5, 4, 2, 2, 3, 4, 1, 2, 0, 2, 1, 4, 1, 4, 2, 4, 11, 23,
   0, 22, 12, 19, 7, 2, 2, 2, 22, 2, 15, 4, 0, 27, 2, 3, 0, 3, 1, 5, 9, 9, 6, 2, 0, 5, 7, 2, 2, 2,
   22, 2, 9, 2, 4, 4, 0, 32, 1, 2, 1, 5, 9, 2, 1, 18, 8, 2, 2, 2, 40, 3, 0, 17, 0, 6, 2, 2, 9, 5,
   18, 2, 5, 6, 17, 4, 23, 2, 8, 2, 0, 3, 6, 32, 9, 18, 47, 2, 1, 13, 6, 10, 9, 40, 1, 2, 0, 2, 4,
   2, 23, 2, 0, 2, 9, 2, 1, 10, 0, 3, 4, 2, 0, 10, 9, 3, 3, 33, 0, 32, 19, 13, 7, 2, 35, 28, 4, 116,
   42, 21, 10, 7, 5, 5, 3, 4, 0, 4, 1, 8, 2, 5, 12, 13, 0, 2, 9, 7, 37, 2, 0, 6, 0, 3, 42, 2, 332,
   2, 3, 3, 6, 2, 0, 2, 3, 3, 40, 2, 3, 3, 32, 2, 3, 3, 6, 2, 0, 2, 3, 3, 14, 2, 56, 2, 3, 3, 66,
   15, 19, 4, 15, 17, 85, 3, 5, 4, 619, 3, 16, 2, 25, 6, 74, 4, 10, 8, 17, 14, 18, 15, 17, 15, 12,
   2, 2, 16, 51, 36, 0, 5, 0, 4, 9, 7, 9, 23, 9, 7, 88, 8, 4, 3, 33, 2, 0, 6, 69, 11, 30, 40, 39, 3,
   4, 12, 43, 5, 25, 7, 10, 38, 22, 10, 52, 44, 9, 7, 9, 14, 0, 94, 46, 18, 7, 4, 9, 42, 29, 14, 55,
   27, 35, 29, 9, 4, 48, 3, 8, 8, 42, 3, 2, 42, 3, 2, 5, 2, 1, 4, 0, 6, 191, 65, 277, 3, 5, 3, 37,
   3, 5, 3, 7, 2, 0, 2, 0, 2, 0, 2, 30, 3, 52, 2, 6, 2, 0, 4, 2, 2, 6, 4, 3, 3, 5, 5, 12, 6, 2, 2,
   6, 116, 1, 3, 5, 6, 10, 7, 12, 102, 0, 5, 0, 3, 9, 2, 0, 4, 4, 7, 0, 2, 0, 2, 0, 2, 3, 2, 10, 3,
   3, 6, 4, 5, 0, 2, 57, 727, 59, 79, 21, 631, 29, 1133, 228, 7, 3, 4, 1, 10, 0, 3, 37, 2, 0, 6, 0,
   3, 55, 8, 0, 17, 22, 10, 6, 2, 6, 2, 6, 2, 6, 2, 6, 2, 6, 2, 6, 2, 6, 81, 0, 470, 2, 26, 8, 8, 4,
   3, 4, 5, 85, 7, 2, 2, 89, 2, 3, 6, 42, 2, 93, 4, 3, 11, 31, 49, 15, 33, 9, 31, 7, 2, 14, 33, 9,
   40, 14, 321, 6591, 65, 22156, 68, 45, 3, 268, 4, 27, 21, 46, 17, 30, 3, 79, 40, 8, 3, 102, 3, 63,
   6, 1, 2, 0, 2, 4, 25, 15, 2, 2, 2, 3, 2, 22, 14, 5, 11, 51, 15, 49, 29, 9, 25, 5, 4, 0, 2, 1, 2,
   37, 11, 22, 26, 28, 8, 46, 29, 10, 7, 4, 2, 24, 2, 40, 24, 2, 2, 7, 5, 9, 7, 22, 4, 0, 4, 49, 2,
   0, 4, 1, 3, 4, 3, 0, 2, 0, 25, 2, 3, 10, 8, 2, 13, 5, 3, 5, 3, 5, 10, 6, 2, 6, 2, 42, 2, 13, 7,
   114, 14, 9, 7, 11171, 13, 22, 5, 48, 8453, 365, 3, 105, 39, 6, 13, 4, 6, 0, 2, 9, 2, 12, 2, 4, 2,
   0, 2, 1, 2, 1, 2, 107, 34, 362, 19, 63, 3, 53, 41, 11, 117, 4, 2, 134, 20, 9, 8, 25, 7, 25, 12,
   88, 4, 5, 3, 5, 3, 5, 3, 2, 36, 11, 2, 25, 2, 18, 2, 1, 2, 14, 3, 13, 35, 122, 13, 44, 13, 56,
   18, 1, 245, 28, 4, 48, 17, 26, 5, 35, 10, 29, 6, 37, 11, 29, 3, 35, 5, 7, 2, 4, 43, 157, 3, 9, 7,
   35, 5, 35, 5, 39, 9, 51, 13, 10, 2, 14, 2, 6, 2, 1, 2, 10, 2, 14, 2, 6, 2, 1, 68, 310, 10, 21,
   11, 7, 25, 5, 2, 41, 2, 8, 70, 5, 3, 0, 2, 43, 2, 1, 4, 0, 3, 22, 3, 30, 3, 37, 9, 8, 49, 18, 2,
   1, 6, 32, 5, 25, 71, 55, 5, 19, 3, 46, 16, 3, 2, 2, 2, 28, 11, 8, 24, 30, 2, 31, 33, 7, 2, 27, 7,
   4, 17, 53, 11, 21, 3, 26, 6, 25, 24, 6, 81, 72, 56, 50, 14, 50, 8, 41, 13, 9, 295, 30, 2, 41, 7,
   1, 79, 39, 9, 21, 12, 3, 28, 17, 47, 27, 21, 22, 13, 52, 27, 29, 2, 1, 3, 0, 14, 44, 33, 24, 8,
   9, 10, 35, 16, 9, 5, 0, 3, 0, 9, 34, 4, 0, 13, 47, 15, 3, 12, 10, 2, 0, 5, 19, 12, 17, 2, 24, 85,
   6, 2, 0, 2, 3, 2, 14, 2, 9, 8, 46, 18, 9, 12, 7, 3, 1, 3, 21, 2, 6, 2, 1, 2, 4, 4, 0, 19, 0, 13,
   4, 159, 52, 19, 3, 6, 9, 6, 2, 31, 47, 21, 1, 2, 0, 9, 9, 167, 46, 42, 3, 37, 47, 21, 0, 12, 9,
   39, 42, 14, 0, 8, 9, 55, 26, 22, 11, 5, 6, 186, 43, 117, 82, 13, 7, 3, 0, 3, 7, 2, 1, 2, 23, 16,
   0, 2, 0, 15, 9, 71, 7, 3, 38, 17, 0, 2, 0, 29, 0, 11, 39, 8, 0, 22, 0, 12, 45, 20, 0, 19, 72,
   264, 8, 2, 36, 18, 0, 16, 28, 6, 29, 113, 6, 2, 1, 2, 37, 22, 0, 10, 9, 7, 5, 2, 1, 2, 31, 15, 0,
   8, 9, 311, 18, 190, 0, 16, 20, 44, 921, 103, 110, 18, 195, 2637, 96, 16, 1070, 4050, 582, 8634,
   568, 8, 30, 2, 9, 7, 78, 2, 9, 7, 29, 19, 47, 17, 3, 13, 9, 2, 6, 2, 20, 6, 18, 689, 86, 106, 74,
   6, 0, 67, 12, 65, 1, 2, 0, 29, 6135, 9, 1237, 43, 8, 8936, 3, 2, 6, 2, 1, 2, 290, 46, 2, 18, 3,
   9, 395, 2309, 106, 6, 12, 4, 8, 8, 9, 5703, 19, 109, 24, 136, 84, 2, 70, 2, 1, 3, 0, 3, 1, 3, 3,
   2, 11, 2, 0, 2, 6, 2, 64, 2, 3, 3, 7, 2, 6, 2, 27, 2, 3, 2, 4, 2, 0, 4, 6, 2, 339, 3, 24, 2, 24,
   2, 30, 2, 24, 2, 30, 2, 24, 2, 30, 2, 24, 2, 30, 2, 24, 2, 7, 3, 49, 1793, 30, 482, 44, 11, 6, 3,
   9, 5, 0, 322, 29, 19, 43, 5, 9, 1255, 6, 2, 3, 2, 1, 2, 14, 2, 196, 3, 8, 49, 67, 8, 0, 5, 9,
   792, 58, 2, 2, 2, 3, 77, 44, 2, 14, 195, 3, 2, 26, 2, 1, 2, 0, 3, 0, 2, 9, 2, 3, 2, 0, 2, 0, 7,
   0, 5, 0, 2, 0, 2, 0, 2, 2, 2, 1, 2, 0, 3, 0, 2, 0, 2, 0, 2, 0, 2, 0, 2, 1, 2, 0, 3, 3, 2, 6, 2,
   3, 2, 3, 2, 0, 2, 9, 2, 16, 6, 2, 2, 4, 2, 16, 581, 12, 2788, 9, 1031, 42719, 33, 4152, 8, 221,
   3, 5761, 15, 7472, 3104, 541, 1507, 4938]

/-- Whether a character can stand inside a word. -/
def isWordChar (c : Char) : Bool :=
  inSteps 0 wordSteps c.toNat

/-- Whether a word begins or ends between two neighbours, the ends of the text being no word. -/
def isWordBoundary (before after : Option Char) : Bool :=
  before.any isWordChar != after.any isWordChar

end LeftHand
