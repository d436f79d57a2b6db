import SoftTyping.Text.CodePoints

/-!
# Letter case of code points

Three tables of the Unicode Character Database, version 17: the letters that have a case (`cased`), the marks that a look
for a neighbouring letter passes over (`caseIgnorable`), and the lower-case form of each upper-case letter that has a form
of one code point (`lowerCode?`). The one letter whose lower-case form has two code points is treated in
`SoftTyping.Text.LowerCase`.
-/

namespace SoftTyping.Text

/-- Letters that are upper-case, lower-case or title-case. -/
def cased : Borders := .ofGaps [
  "65 26 6 26 47 1 10 1 4 1 5 23 1 31 1 195 1 4 4 208 2 35 7 2 30 5 96 1 42 4 2 2 2 4 1 1 6 1 1 3 1 1 1 20 1 83 1 139 8",
  "166 1 38 9 41 2839 38 1 1 5 1 2 43 1 4 672 86 2 6 2178 11 5 43 2 3 64 192 64 278 2 6 2 38 2 6 2 8 1 1 1 1 1 1 1 31 2",
  "53 1 7 1 1 3 3 1 7 3 4 2 6 4 13 5 3 1 7 116 1 13 1 16 13 101 1 4 1 2 10 1 1 3 5 6 1 1 1 1 1 1 4 1 6 4 1 2 4 5 5 4 1 17",
  "32 3 2 817 52 1814 229 6 4 3 2 12 38 1 1 5 1 30994 46 18 30 132 102 3 4 1 77 20 6 1 3 821 43 1 14 6 80 20288 7 12 5",
  "1033 26 6 26 1189 80 96 36 4 36 116 11 1 15 1 7 1 2 1 11 1 15 1 7 1 2 451 1 2 3 1 42 1 9 1221 51 13 51 93 22 10 22",
  "2842 64 21856 64 32 25 2 25 25900 85 1 71 1 2 2 1 2 2 2 4 1 12 1 1 1 7 1 65 1 4 2 8 1 7 1 28 1 4 1 5 1 1 3 7 1 340 2",
  "25 1 25 1 31 1 25 1 31 1 25 1 31 1 25 1 31 1 25 1 8 1844 10 1 20 6 6 261 62 2194 68 2028 26 6 26 6 26"]

/-- Characters that are passed over when the letter next to a position is looked for. -/
def caseIgnorable : Borders := .ofGaps [
  "39 1 6 1 11 1 35 1 1 1 71 1 4 1 1 1 4 1 2 2 503 192 4 2 4 1 9 2 1 1 251 7 207 1 5 1 49 45 1 1 1 2 1 2 1 1 44 1 11 6 10",
  "11 1 1 35 1 10 21 16 1 101 8 1 10 1 4 33 1 1 1 30 27 91 11 58 11 4 1 2 1 24 24 43 3 44 1 7 2 5 9 41 58 55 1 1 1 4 8 4",
  "1 3 7 10 2 13 1 15 1 58 1 4 4 8 1 20 2 26 1 2 2 57 1 4 2 4 2 2 3 3 1 30 2 3 1 11 2 57 1 4 5 1 2 4 1 20 2 22 6 1 1 58 1",
  "2 1 1 4 8 1 7 2 11 2 30 1 61 1 12 1 50 1 3 1 55 1 1 3 5 3 1 4 7 2 11 2 29 1 58 1 2 1 6 1 5 2 20 2 28 2 57 2 4 4 8 1 20",
  "2 29 1 72 1 7 3 1 1 90 1 2 7 11 9 98 1 2 9 9 1 1 7 73 2 27 1 1 1 1 1 55 14 1 5 1 2 5 11 1 36 9 1 102 4 1 6 1 2 2 2 25",
  "2 4 3 16 4 13 1 2 2 6 1 15 1 94 1 608 3 946 3 29 2 30 2 30 2 64 2 1 7 8 1 2 11 3 1 5 1 45 5 51 1 65 2 34 1 118 3 4 2 9",
  "1 6 3 219 2 2 1 58 1 1 7 1 1 1 1 2 8 6 10 2 1 39 1 8 46 2 12 20 4 48 1 1 5 1 1 5 1 40 9 12 2 32 4 2 2 1 3 56 1 1 2 3 1",
  "1 3 58 8 2 2 64 6 82 3 1 13 1 7 4 1 6 1 3 2 50 63 13 1 34 101 445 1 1 3 11 3 13 3 13 3 13 2 12 5 8 2 10 1 2 1 2 5 49 5",
  "1 10 1 1 13 1 16 13 51 33 2955 2 113 3 125 1 15 1 96 32 47 1 469 1 36 4 3 5 5 1 93 6 93 3 28438 1 1250 6 270 1 98 4 1",
  "10 1 1 28 4 80 2 14 34 78 1 23 3 102 4 3 2 8 1 3 1 4 1 25 2 5 1 151 2 26 18 13 1 38 8 25 11 46 3 48 1 2 4 2 2 17 1 21",
  "2 66 6 2 2 2 2 12 1 8 1 35 1 11 1 51 1 1 3 2 2 5 2 1 1 27 1 14 2 5 2 1 1 100 5 9 3 121 1 2 1 4 1 20272 1 147 17 573 16",
  "3 1 12 16 34 1 2 1 169 1 7 1 6 1 11 1 35 1 1 1 47 1 45 2 67 1 21 3 513 1 226 1 149 5 1029 6 1 42 1 9 582 3 1 2 5 4 40",
  "3 4 1 165 2 573 4 38 1 26 5 1 1 315 2 24 1 52 6 70 11 49 4 123 1 54 15 41 1 2 2 10 3 49 4 2 2 2 1 4 1 10 1 50 3 36 5 1",
  "8 62 1 12 2 52 9 10 4 2 1 95 3 2 1 1 2 6 1 2 1 157 1 3 8 21 2 57 2 3 1 37 7 3 5 70 6 13 1 1 1 1 1 14 2 85 8 2 3 1 1 23",
  "1 84 6 1 1 4 2 1 2 238 4 6 2 1 2 27 2 85 8 2 1 1 2 106 1 1 1 2 6 1 1 101 1 1 1 2 4 1 5 259 9 1 2 256 2 1 1 4 1 144 4 2",
  "2 4 1 32 10 40 6 2 4 8 1 9 6 2 3 46 13 1 2 198 1 1 3 1 1 201 7 1 6 1 1 82 22 2 7 1 2 1 2 122 6 3 1 1 2 1 7 1 1 72 2 3",
  "1 1 1 65 1 281 2 11 2 52 5 5 1 1 1 23 1 5333 17 6 15 11464 12 3 3 2496 5 59 7 9 4 508 3 40 2 482 1 63 17 64 2 1 2 13 2",
  "16380 4 1 7 1 2 3230 2 1 4 4700 46 2 23 544 3 9 16 2 7 30 4 148 3 1979 55 4 50 8 1 14 1 22 5 1 15 1360 7 1 17 2 7 1 2",
  "1 5 5 62 33 1 160 14 368 1 61 4 507 5 254 2 243 1 2 1 7 2 5 1 9 1 464 7 109 8 2735 5 789505 1 30 96 128 240"]

/-- Runs in which upper-case letters alternate with their lower-case forms, from the first upper-case letter to the last. -/
def alternating : List (Nat × Nat) := [
  (256, 302), (306, 310), (313, 327), (330, 374), (377, 381), (386, 388), (391, 391), (395, 395), (401, 401), (408, 408),
  (416, 420), (423, 423), (428, 428), (431, 431), (435, 437), (440, 440), (444, 444), (453, 453), (456, 456), (459, 475),
  (478, 494), (498, 500), (504, 542), (546, 562), (571, 571), (577, 577), (582, 590), (880, 882), (886, 886), (984, 1006),
  (1015, 1015), (1018, 1018), (1120, 1152), (1162, 1214), (1217, 1229), (1232, 1326), (7305, 7305), (7680, 7828),
  (7840, 7934), (8579, 8579), (11360, 11360), (11367, 11371), (11378, 11378), (11381, 11381), (11392, 11490),
  (11499, 11501), (11506, 11506), (42560, 42604), (42624, 42650), (42786, 42798), (42802, 42862), (42873, 42875),
  (42878, 42886), (42891, 42891), (42896, 42898), (42902, 42920), (42932, 42946), (42951, 42953), (42956, 42970),
  (42997, 42997)]

/-- Runs of upper-case letters, the first and the last, with the lower-case form of the first; the other forms follow it. -/
def shifted : List (Nat × Nat × Nat) := [
  (65, 90, 97), (192, 214, 224), (216, 222, 248), (393, 394, 598), (433, 434, 650), (904, 906, 941), (910, 911, 973),
  (913, 929, 945), (931, 939, 963), (1021, 1023, 891), (1024, 1039, 1104), (1040, 1071, 1072), (1329, 1366, 1377),
  (4256, 4293, 11520), (5024, 5103, 43888), (5104, 5109, 5112), (7312, 7354, 4304), (7357, 7359, 4349), (7944, 7951, 7936),
  (7960, 7965, 7952), (7976, 7983, 7968), (7992, 7999, 7984), (8008, 8013, 8000), (8040, 8047, 8032), (8072, 8079, 8064),
  (8088, 8095, 8080), (8104, 8111, 8096), (8120, 8121, 8112), (8122, 8123, 8048), (8136, 8139, 8050), (8152, 8153, 8144),
  (8154, 8155, 8054), (8168, 8169, 8160), (8170, 8171, 8058), (8184, 8185, 8056), (8186, 8187, 8060), (8544, 8559, 8560),
  (9398, 9423, 9424), (11264, 11311, 11312), (11390, 11391, 575), (65313, 65338, 65345), (66560, 66599, 66600),
  (66736, 66771, 66776), (66928, 66938, 66967), (66940, 66954, 66979), (66956, 66962, 66995), (66964, 66965, 67003),
  (68736, 68786, 68800), (68944, 68965, 68976), (71840, 71871, 71872), (93760, 93791, 93792), (93856, 93880, 93883),
  (125184, 125217, 125218)]

/-- The other upper-case letters with their lower-case forms. -/
def single : List (Nat × Nat) := [
  (376, 255), (385, 595), (390, 596), (398, 477), (399, 601), (400, 603), (403, 608), (404, 611), (406, 617), (407, 616),
  (412, 623), (413, 626), (415, 629), (422, 640), (425, 643), (430, 648), (439, 658), (452, 454), (455, 457), (458, 460),
  (497, 499), (502, 405), (503, 447), (544, 414), (570, 11365), (573, 410), (574, 11366), (579, 384), (580, 649),
  (581, 652), (895, 1011), (902, 940), (908, 972), (975, 983), (1012, 952), (1017, 1010), (1216, 1231), (4295, 11559),
  (4301, 11565), (7838, 223), (8025, 8017), (8027, 8019), (8029, 8021), (8031, 8023), (8124, 8115), (8140, 8131),
  (8172, 8165), (8188, 8179), (8486, 969), (8490, 107), (8491, 229), (8498, 8526), (11362, 619), (11363, 7549),
  (11364, 637), (11373, 593), (11374, 625), (11375, 592), (11376, 594), (42877, 7545), (42893, 613), (42922, 614),
  (42923, 604), (42924, 609), (42925, 620), (42926, 618), (42928, 670), (42929, 647), (42930, 669), (42931, 43859),
  (42948, 42900), (42949, 642), (42950, 7566), (42955, 612), (42972, 411)]

/-- The lower-case form of a letter. -/
def lowerCode? (code : Nat) : Option Nat :=
  if alternating.any fun (first, last) => first ≤ code ∧ code ≤ last ∧ (code - first) % 2 = 0 then some (code + 1)
  else match shifted.find? fun (first, last, _) => first ≤ code ∧ code ≤ last with
    | some (first, _, image) => some (image + (code - first))
    | none => single.lookup code

end SoftTyping.Text
