import SfcJsx.Text.CaseRun

/-!
Upper case of one character, in full: some characters become two or three.
-/

namespace SfcJsx.Text

/-- Characters that are not the lower case of their upper case. -/
def upperOnly : List CaseRun :=
  [.one 181 743, .one 305 (-232), .one 383 (-300), .one 453 (-1), .one 456 (-1), .one 459 (-1),
   .one 498 (-1), .one 837 84, .one 962 (-31), .one 976 (-62), .one 977 (-57), .one 981 (-47),
   .one 982 (-54), .one 1008 (-86), .one 1009 (-80), .one 1013 (-96), .one 7296 (-6254),
   .one 7297 (-6253), .one 7298 (-6244), .mk 7299 7300 1 (-6242), .one 7301 (-6243),
   .one 7302 (-6236), .one 7303 (-6181), .one 7304 35266, .one 7835 (-59), .one 8126 (-7205)]

def upperRuns : List CaseRun := upperOnly ++ letterPairs.map CaseRun.inverse

/-- Eight Greek letters with an iota below them; the iota becomes a capital of its own. -/
def iotaBelow (first capital : Nat) : List (Nat × List Nat) :=
  (List.range 8).map fun k => (first + k, [capital + k, 921])

/-- Characters whose upper case is several characters. -/
def upperExpansions : List (Nat × List Nat) :=
  iotaBelow 8064 7944 ++ iotaBelow 8072 7944 ++ iotaBelow 8080 7976 ++ iotaBelow 8088 7976 ++
  iotaBelow 8096 8040 ++ iotaBelow 8104 8040 ++
  [(223, [83, 83]), (329, [700, 78]), (496, [74, 780]), (912, [921, 776, 769]),
   (944, [933, 776, 769]), (1415, [1333, 1362]), (7830, [72, 817]), (7831, [84, 776]),
   (7832, [87, 778]), (7833, [89, 778]), (7834, [65, 702]), (8016, [933, 787]),
   (8018, [933, 787, 768]), (8020, [933, 787, 769]), (8022, [933, 787, 834]), (8114, [8122, 921]),
   (8115, [913, 921]), (8116, [902, 921]), (8118, [913, 834]), (8119, [913, 834, 921]),
   (8124, [913, 921]), (8130, [8138, 921]), (8131, [919, 921]), (8132, [905, 921]),
   (8134, [919, 834]), (8135, [919, 834, 921]), (8140, [919, 921]), (8146, [921, 776, 768]),
   (8147, [921, 776, 769]), (8150, [921, 834]), (8151, [921, 776, 834]), (8162, [933, 776, 768]),
   (8163, [933, 776, 769]), (8164, [929, 787]), (8166, [933, 834]), (8167, [933, 776, 834]),
   (8178, [8186, 921]), (8179, [937, 921]), (8180, [911, 921]), (8182, [937, 834]),
   (8183, [937, 834, 921]), (8188, [937, 921]), (64256, [70, 70]), (64257, [70, 73]),
   (64258, [70, 76]), (64259, [70, 70, 73]), (64260, [70, 70, 76]), (64261, [83, 84]),
   (64262, [83, 84]), (64275, [1348, 1350]), (64276, [1348, 1333]), (64277, [1348, 1339]),
   (64278, [1358, 1350]), (64279, [1348, 1341])]

def upper (c : Char) : Text :=
  if c.toNat < 0x80 then [c.toUpper]
  else match upperExpansions.lookup c.toNat with
    | some codes => codes.map Char.ofNat
    | none => [CaseRun.map upperRuns c]

def capitalize : Text → Text
  | [] => []
  | c :: rest => upper c ++ rest

end SfcJsx.Text
