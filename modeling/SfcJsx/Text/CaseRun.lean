import SfcJsx.Text.Ranges

/-!
Case mappings as runs: every `step`-th code point from `first` to `last` moves by `shift`. Capitals
and small letters that belong together are in one table, which is read both ways.
-/

namespace SfcJsx

structure CaseRun where
  first : Nat
  last : Nat
  step : Nat
  shift : Int

/-- A single character that moves. -/
def CaseRun.one (code : Nat) (shift : Int) : CaseRun := ⟨code, code, 1, shift⟩

def CaseRun.covers (run : CaseRun) (code : Nat) : Bool :=
  run.first ≤ code && code ≤ run.last && (code - run.first) % run.step == 0

def CaseRun.map (runs : List CaseRun) (c : Char) : Char :=
  match runs.find? (·.covers c.toNat) with
  | some run => Char.ofNat (c.toNat + run.shift).toNat
  | none => c

/-- The way back. -/
def CaseRun.inverse (run : CaseRun) : CaseRun :=
  ⟨(run.first + run.shift).toNat, (run.last + run.shift).toNat, run.step, -run.shift⟩

/-- Capitals, which move to their small letters. -/
def letterPairs : List CaseRun :=
  [.mk 192 214 1 32, .mk 216 222 1 32, .mk 256 302 2 1, .mk 306 310 2 1, .mk 313 327 2 1,
   .mk 330 374 2 1, .one 376 (-121), .mk 377 381 2 1, .one 385 210, .mk 386 388 2 1, .one 390 206,
   .one 391 1, .mk 393 394 1 205, .one 395 1, .one 398 79, .one 399 202, .one 400 203, .one 401 1,
   .one 403 205, .one 404 207, .one 406 211, .one 407 209, .one 408 1, .one 412 211, .one 413 213,
   .one 415 214, .mk 416 420 2 1, .one 422 218, .one 423 1, .one 425 218, .one 428 1, .one 430 218,
   .one 431 1, .mk 433 434 1 217, .mk 435 437 2 1, .one 439 219, .one 440 1, .one 444 1, .one 452 2,
   .one 455 2, .one 458 2, .mk 461 475 2 1, .mk 478 494 2 1, .one 497 2, .one 500 1, .one 502 (-97),
   .one 503 (-56), .mk 504 542 2 1, .one 544 (-130), .mk 546 562 2 1, .one 570 10795, .one 571 1,
   .one 573 (-163), .one 574 10792, .one 577 1, .one 579 (-195), .one 580 69, .one 581 71,
   .mk 582 590 2 1, .mk 880 882 2 1, .one 886 1, .one 895 116, .one 902 38, .mk 904 906 1 37,
   .one 908 64, .mk 910 911 1 63, .mk 913 929 1 32, .mk 931 939 1 32, .one 975 8, .mk 984 1006 2 1,
   .one 1015 1, .one 1017 (-7), .one 1018 1, .mk 1021 1023 1 (-130), .mk 1024 1039 1 80,
   .mk 1040 1071 1 32, .mk 1120 1152 2 1, .mk 1162 1214 2 1, .one 1216 15, .mk 1217 1229 2 1,
   .mk 1232 1326 2 1, .mk 1329 1366 1 48, .mk 4256 4293 1 7264, .one 4295 7264, .one 4301 7264,
   .mk 5024 5103 1 38864, .mk 5104 5109 1 8, .one 7305 1, .mk 7312 7354 1 (-3008),
   .mk 7357 7359 1 (-3008), .mk 7680 7828 2 1, .mk 7840 7934 2 1, .mk 7944 7951 1 (-8),
   .mk 7960 7965 1 (-8), .mk 7976 7983 1 (-8), .mk 7992 7999 1 (-8), .mk 8008 8013 1 (-8),
   .mk 8025 8031 2 (-8), .mk 8040 8047 1 (-8), .mk 8120 8121 1 (-8), .mk 8122 8123 1 (-74),
   .mk 8136 8139 1 (-86), .mk 8152 8153 1 (-8), .mk 8154 8155 1 (-100), .mk 8168 8169 1 (-8),
   .mk 8170 8171 1 (-112), .one 8172 (-7), .mk 8184 8185 1 (-128), .mk 8186 8187 1 (-126),
   .one 8498 28, .mk 8544 8559 1 16, .one 8579 1, .mk 9398 9423 1 26, .mk 11264 11311 1 48,
   .one 11360 1, .one 11362 (-10743), .one 11363 (-3814), .one 11364 (-10727), .mk 11367 11371 2 1,
   .one 11373 (-10780), .one 11374 (-10749), .one 11375 (-10783), .one 11376 (-10782), .one 11378 1,
   .one 11381 1, .mk 11390 11391 1 (-10815), .mk 11392 11490 2 1, .mk 11499 11501 2 1, .one 11506 1,
   .mk 42560 42604 2 1, .mk 42624 42650 2 1, .mk 42786 42798 2 1, .mk 42802 42862 2 1,
   .mk 42873 42875 2 1, .one 42877 (-35332), .mk 42878 42886 2 1, .one 42891 1, .one 42893 (-42280),
   .mk 42896 42898 2 1, .mk 42902 42920 2 1, .one 42922 (-42308), .one 42923 (-42319),
   .one 42924 (-42315), .one 42925 (-42305), .one 42926 (-42308), .one 42928 (-42258),
   .one 42929 (-42282), .one 42930 (-42261), .one 42931 928, .mk 42932 42946 2 1, .one 42948 (-48),
   .one 42949 (-42307), .one 42950 (-35384), .mk 42951 42953 2 1, .one 42955 (-42343),
   .mk 42956 42970 2 1, .one 42972 (-42561), .one 42997 1, .mk 65313 65338 1 32,
   .mk 66560 66599 1 40, .mk 66736 66771 1 40, .mk 66928 66938 1 39, .mk 66940 66954 1 39,
   .mk 66956 66962 1 39, .mk 66964 66965 1 39, .mk 68736 68786 1 64, .mk 68944 68965 1 32,
   .mk 71840 71871 1 32, .mk 93760 93791 1 32, .mk 93856 93880 1 27, .mk 125184 125217 1 34]

end SfcJsx
