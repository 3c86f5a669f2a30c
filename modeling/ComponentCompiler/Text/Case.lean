import ComponentCompiler.Text.Letter

/-!
This module contains the upper and lower case of texts in all of Unicode: the test for upper case
letters and the two mappings. A letter and its lower case are mostly mapped to each other, so that
one table serves both ways, beside the few letters for which it does not.
-/

namespace ComponentCompiler
namespace Text

/-- Every `stride`-th of some code points, with what the first of them is mapped to. -/
structure CaseRun where
  first : Nat
  length : Nat
  stride : Nat
  target : Nat

/-- A table of runs gives for each the code points before it, counted from the end of the one
before, and in it, its stride and its target. -/
def runsFrom (pos : Nat) : List Nat → List CaseRun
  | before :: length :: stride :: target :: runs =>
    ⟨pos + before, length, stride, target⟩ :: runsFrom (pos + before + length) runs
  | _ => []

namespace CaseRun

def map? (run : CaseRun) (n : Nat) : Option Nat :=
  if run.first ≤ n && n < run.first + run.length && (n - run.first) % run.stride == 0 then
    some (run.target + (n - run.first))
  else
    none

def swap (run : CaseRun) : CaseRun :=
  { run with first := run.target, target := run.first }

end CaseRun

/-- Characters with a lower case of one character. -/
def lowerRuns : List CaseRun := runsFrom 0
  [65,26,1,97,101,23,1,224,1,7,1,248,33,47,2,257,3,5,2,307,2,15,2,314,2,45,2,331,1,1,1,255,0,5,2,
    378,3,1,1,595,0,3,2,387,1,1,1,596,0,1,1,392,1,2,1,598,0,1,1,396,2,1,1,477,0,1,1,601,0,1,1,603,0,
    1,1,402,1,1,1,608,0,1,1,611,1,1,1,617,0,1,1,616,0,1,1,409,3,1,1,623,0,1,1,626,1,1,1,629,0,5,2,
    417,1,1,1,640,0,1,1,424,1,1,1,643,2,1,1,429,1,1,1,648,0,1,1,432,1,2,1,650,0,3,2,436,1,1,1,658,0,
    1,1,441,3,1,1,445,7,1,1,454,0,1,1,454,1,1,1,457,0,1,1,457,1,1,1,460,0,17,2,460,2,17,2,479,2,1,1,
    499,0,3,2,499,1,1,1,405,0,1,1,447,0,39,2,505,1,1,1,414,1,17,2,547,7,1,1,11365,0,1,1,572,1,1,1,
    410,0,1,1,11366,2,1,1,578,1,1,1,384,0,1,1,649,0,1,1,652,0,9,2,583,289,3,2,881,3,1,1,887,8,1,1,
    1011,6,1,1,940,1,3,1,941,1,1,1,972,1,2,1,973,1,17,1,945,1,9,1,963,35,1,1,983,8,23,2,985,5,1,1,
    952,2,1,1,1016,1,1,1,1010,0,1,1,1019,2,3,1,891,0,16,1,1104,0,32,1,1072,48,33,2,1121,9,53,2,1163,
    1,1,1,1231,0,13,2,1218,2,95,2,1233,2,38,1,1377,2889,38,1,11520,1,1,1,11559,5,1,1,11565,722,80,1,
    43888,0,6,1,5112,2202,43,1,4304,2,3,1,4349,320,149,2,7681,9,1,1,223,1,95,2,7841,9,8,1,7936,8,6,
    1,7952,10,8,1,7968,8,8,1,7984,8,6,1,8000,11,7,2,8017,8,8,1,8032,24,8,1,8064,8,8,1,8080,8,8,1,
    8096,8,2,1,8112,0,2,1,8048,0,1,1,8115,11,4,1,8050,0,1,1,8131,11,2,1,8144,0,2,1,8054,12,2,1,8160,
    0,2,1,8058,0,1,1,8165,11,2,1,8056,0,2,1,8060,0,1,1,8179,297,1,1,969,3,1,1,107,0,1,1,229,6,1,1,
    8526,45,16,1,8560,19,1,1,8580,818,26,1,9424,1840,48,1,11312,48,1,1,11361,1,1,1,619,0,1,1,7549,0,
    1,1,637,2,5,2,11368,1,1,1,593,0,1,1,625,0,1,1,592,0,1,1,594,1,1,1,11379,2,1,1,11382,8,2,1,575,0,
    99,2,11393,8,3,2,11500,4,1,1,11507,31053,45,2,42561,19,27,2,42625,135,13,2,42787,3,61,2,42803,
    10,3,2,42874,1,1,1,7545,0,9,2,42879,4,1,1,42892,1,1,1,613,2,3,2,42897,3,19,2,42903,1,1,1,614,0,
    1,1,604,0,1,1,609,0,1,1,620,0,1,1,618,1,1,1,670,0,1,1,647,0,1,1,669,0,1,1,43859,0,15,2,42933,1,
    1,1,42900,0,1,1,642,0,1,1,7566,0,3,2,42952,6,1,1,42961,5,3,2,42967,28,1,1,42998,22315,26,1,
    65345,1221,40,1,66600,136,36,1,66776,156,11,1,66967,1,15,1,66979,1,7,1,66995,1,2,1,67003,1770,
    51,1,68800,3053,32,1,71872,21888,32,1,93792,31392,34,1,125218]

/-- Characters whose upper case is not one that they are the lower case of. -/
def raisedRuns : List CaseRun := runsFrom 0
  [181,1,1,924,123,1,1,73,77,1,1,83,69,1,1,452,2,1,1,455,2,1,1,458,38,1,1,497,338,1,1,921,124,1,1,
    931,13,1,1,914,0,1,1,920,3,1,1,934,0,1,1,928,25,1,1,922,0,1,1,929,3,1,1,917,6282,1,1,1042,0,1,1,
    1044,0,1,1,1054,0,2,1,1057,0,1,1,1058,0,1,1,1066,0,1,1,1122,0,1,1,42570,530,1,1,7776,290,1,1,
    921]

/-- Characters whose upper case is another character and an iota. -/
def iotaRuns : List CaseRun := runsFrom 0
  [8064,8,1,7944,0,8,1,7944,0,8,1,7976,0,8,1,7976,0,8,1,8040,0,8,1,8040,2,1,1,8122,0,1,1,913,0,1,1,
    902,7,1,1,913,5,1,1,8138,0,1,1,919,0,1,1,905,7,1,1,919,37,1,1,8186,0,1,1,937,0,1,1,911,7,1,1,
    937]

/-- Other characters whose upper case takes several characters. -/
def upperSpelled : List (Nat × List Nat) :=
  [(0xdf, [0x53, 0x53]), (0x149, [0x2bc, 0x4e]), (0x1f0, [0x4a, 0x30c]),
    (0x390, [0x399, 0x308, 0x301]), (0x3b0, [0x3a5, 0x308, 0x301]), (0x587, [0x535, 0x552]),
    (0x1e96, [0x48, 0x331]), (0x1e97, [0x54, 0x308]), (0x1e98, [0x57, 0x30a]),
    (0x1e99, [0x59, 0x30a]), (0x1e9a, [0x41, 0x2be]), (0x1f50, [0x3a5, 0x313]),
    (0x1f52, [0x3a5, 0x313, 0x300]), (0x1f54, [0x3a5, 0x313, 0x301]),
    (0x1f56, [0x3a5, 0x313, 0x342]), (0x1fb6, [0x391, 0x342]), (0x1fb7, [0x391, 0x342, 0x399]),
    (0x1fc6, [0x397, 0x342]), (0x1fc7, [0x397, 0x342, 0x399]), (0x1fd2, [0x399, 0x308, 0x300]),
    (0x1fd3, [0x399, 0x308, 0x301]), (0x1fd6, [0x399, 0x342]), (0x1fd7, [0x399, 0x308, 0x342]),
    (0x1fe2, [0x3a5, 0x308, 0x300]), (0x1fe3, [0x3a5, 0x308, 0x301]), (0x1fe4, [0x3a1, 0x313]),
    (0x1fe6, [0x3a5, 0x342]), (0x1fe7, [0x3a5, 0x308, 0x342]), (0x1ff6, [0x3a9, 0x342]),
    (0x1ff7, [0x3a9, 0x342, 0x399]), (0xfb00, [0x46, 0x46]), (0xfb01, [0x46, 0x49]),
    (0xfb02, [0x46, 0x4c]), (0xfb03, [0x46, 0x46, 0x49]), (0xfb04, [0x46, 0x46, 0x4c]),
    (0xfb05, [0x53, 0x54]), (0xfb06, [0x53, 0x54]), (0xfb13, [0x544, 0x546]),
    (0xfb14, [0x544, 0x535]), (0xfb15, [0x544, 0x53b]), (0xfb16, [0x54e, 0x546]),
    (0xfb17, [0x544, 0x53d])]

/-- Characters with a lower case that are not upper case. -/
def titleRanges : List Nat :=
  [453, 1, 2, 1, 2, 1, 38, 1, 7573, 8, 8, 8, 8, 8, 12, 1, 15, 1, 47, 1]

/-- Upper case characters without a lower case of one character. -/
def capitalRanges : List Nat :=
  [304,1,673,3,7469,1,4,1,3,3,2,3,2,1,3,5,6,1,3,1,3,2,2,2,1,1,10,2,5,1,111290,26,26,26,26,26,26,1,1,
    2,2,1,2,2,2,4,1,8,26,26,26,2,1,4,2,8,1,7,27,2,1,4,1,5,1,1,3,7,27,26,26,26,26,26,26,26,26,26,26,
    26,30,25,33,25,33,25,33,25,33,25,33,1,6501,26,6,26,6,26]

/-- Characters that have a case and are seen when a sigma looks for its neighbours. -/
def casedRanges : List Nat :=
  [65,26,6,26,47,1,10,1,4,1,5,23,1,31,1,195,1,4,4,208,1,27,192,4,2,2,3,3,1,1,6,1,1,3,1,1,1,20,1,83,
    1,139,8,166,1,38,9,41,2839,38,1,1,5,1,2,43,2,3,672,86,2,6,2178,9,7,43,2,3,64,44,63,13,1,34,101,
    278,2,6,2,38,2,6,2,8,1,1,1,1,1,1,1,31,2,53,1,7,1,1,3,3,1,7,3,4,2,6,4,13,5,3,1,7,261,1,4,1,2,10,
    1,1,3,5,6,1,1,1,1,1,1,4,1,6,4,1,2,4,5,5,4,1,17,32,3,2,817,52,1814,124,2,103,6,4,3,2,12,38,1,1,5,
    1,30994,46,18,28,134,78,1,23,3,4,1,59,5,2,1,1,1,5,27,2,3,1,821,43,5,9,7,80,20288,7,12,5,1033,26,
    6,26,1189,80,96,36,4,36,116,11,1,15,1,7,1,2,1,11,1,15,1,7,1,2,1731,51,13,51,2989,64,21856,64,
    25984,85,1,71,1,2,2,1,2,2,2,4,1,12,1,1,1,7,1,65,1,4,2,8,1,7,1,28,1,4,1,5,1,1,3,7,1,340,2,25,1,
    25,1,31,1,25,1,31,1,25,1,31,1,25,1,31,1,25,1,8,1844,10,1,20,2529,68,2028,26,6,26,6,26]

/-- Characters that a sigma looks past when it looks for its neighbours. -/
def ignoredRanges : List Nat :=
  [39,1,6,1,11,1,35,1,1,1,71,1,4,1,1,1,4,1,2,2,503,192,4,2,4,1,9,2,1,1,251,7,207,1,5,1,49,45,1,1,1,
    2,1,2,1,1,44,1,11,6,10,11,1,1,35,1,10,21,16,1,101,8,1,10,1,4,33,1,1,1,30,27,91,11,58,11,4,1,2,1,
    24,24,43,3,44,1,7,2,6,8,41,58,55,1,1,1,4,8,4,1,3,7,10,2,13,1,15,1,58,1,4,4,8,1,20,2,26,1,2,2,57,
    1,4,2,4,2,2,3,3,1,30,2,3,1,11,2,57,1,4,5,1,2,4,1,20,2,22,6,1,1,58,1,2,1,1,4,8,1,7,2,11,2,30,1,
    61,1,12,1,50,1,3,1,55,1,1,3,5,3,1,4,7,2,11,2,29,1,58,1,2,1,6,1,5,2,20,2,28,2,57,2,4,4,8,1,20,2,
    29,1,72,1,7,3,1,1,90,1,2,7,11,9,98,1,2,9,9,1,1,6,74,2,27,1,1,1,1,1,55,14,1,5,1,2,5,11,1,36,9,1,
    102,4,1,6,1,2,2,2,25,2,4,3,16,4,13,1,2,2,6,1,15,1,94,1,608,3,946,3,29,2,30,2,30,2,64,2,1,7,8,1,
    2,11,3,1,5,1,45,5,51,1,65,2,34,1,118,3,4,2,9,1,6,3,219,2,2,1,58,1,1,7,1,1,1,1,2,8,6,10,2,1,39,1,
    8,31,49,4,48,1,1,5,1,1,5,1,40,9,12,2,32,4,2,2,1,3,56,1,1,2,3,1,1,3,58,8,2,2,64,6,82,3,1,13,1,7,
    4,1,6,1,3,2,50,63,13,1,34,101,445,1,1,3,11,3,13,3,13,3,13,2,12,5,8,2,10,1,2,1,2,5,49,5,1,10,1,1,
    13,1,16,13,51,33,2955,2,113,3,125,1,15,1,96,32,47,1,469,1,36,4,3,5,5,1,93,6,93,3,28438,1,1250,6,
    270,1,98,4,1,10,1,1,28,4,80,2,14,34,78,1,23,3,103,3,3,2,8,1,3,1,4,1,25,2,5,1,151,2,26,18,13,1,
    38,8,25,11,46,3,48,1,2,4,2,2,17,1,21,2,66,6,2,2,2,2,12,1,8,1,35,1,11,1,51,1,1,3,2,2,5,2,1,1,27,
    1,14,2,5,2,1,1,100,5,9,3,121,1,2,1,4,1,20272,1,147,17,573,16,3,1,12,16,34,1,2,1,169,1,7,1,6,1,
    11,1,35,1,1,1,47,1,45,2,67,1,21,3,513,1,226,1,149,5,1029,6,1,42,1,9,582,3,1,2,5,4,40,3,4,1,165,
    2,573,4,387,2,153,11,49,4,123,1,54,15,41,1,2,2,10,3,49,4,2,2,2,1,4,1,10,1,50,3,36,5,1,8,62,1,12,
    2,52,9,10,4,2,1,95,3,2,1,1,2,6,1,160,1,3,8,21,2,57,2,3,1,37,7,3,5,195,8,2,3,1,1,23,1,84,6,1,1,4,
    2,1,2,238,4,6,2,1,2,27,2,85,8,2,1,1,2,106,1,1,1,2,6,1,1,101,3,2,4,1,5,259,9,1,2,256,2,1,1,4,1,
    144,4,2,2,4,1,32,10,40,6,2,4,8,1,9,6,2,3,46,13,1,2,406,7,1,6,1,1,82,22,2,7,1,2,1,2,122,6,3,1,1,
    2,1,7,1,1,72,2,3,1,1,1,347,2,5435,9,14007,5,59,7,9,4,1035,1,63,17,64,2,1,2,16395,4,1,7,1,2,3230,
    2,1,4,4700,46,2,23,544,3,9,16,2,7,30,4,148,3,1979,55,4,50,8,1,14,1,22,5,1,15,1360,7,1,17,2,7,1,
    2,1,5,261,14,368,1,61,4,1504,7,109,8,2735,5,789505,1,30,96,128,240]

def mapBy? (runs : List CaseRun) (c : Char) : Option Char :=
  (runs.findSome? (·.map? c.toNat)).map Char.ofNat

def isUpper (c : Char) : Bool :=
  inRanges capitalRanges c.toNat || ((mapBy? lowerRuns c).isSome && !inRanges titleRanges c.toNat)

/-- The first character that is not looked past has a case. -/
def meetsCased (cs : List Char) : Bool :=
  match cs.find? fun c => !inRanges ignoredRanges c.toNat with
  | some c => inRanges casedRanges c.toNat
  | none => false

/-- Lower case of a character between the text before it, nearest first, and the text after it:
a capital sigma that ends a word becomes the final one. -/
def lowerBetween (before : List Char) (c : Char) (after : List Char) : List Char :=
  if c.toNat = 0x3a3 then
    [if meetsCased before && !meetsCased after then Char.ofNat 0x3c2 else Char.ofNat 0x3c3]
  else if c.toNat = 0x130 then
    ['i', Char.ofNat 0x307]
  else
    [(mapBy? lowerRuns c).getD c]

def toLower (cs : List Char) : List Char :=
  go [] cs
where
  go (before : List Char) : List Char → List Char
    | [] => []
    | c :: cs => lowerBetween before c cs ++ go (c :: before) cs

def toUpper (c : Char) : List Char :=
  match mapBy? iotaRuns c, upperSpelled.lookup c.toNat with
  | some letter, _ => [letter, Char.ofNat 0x399]
  | none, some spelled => spelled.map Char.ofNat
  | none, none => [(mapBy? (raisedRuns ++ lowerRuns.map CaseRun.swap) c).getD c]

end Text
end ComponentCompiler
