import Ps2rd.Debugger.Pattern

/-!
# The patterns of the functions that are hooked

The tables of `padread_patterns.h` and `loadmodule_patterns.h`.  The tag of a pattern
says which of the two libraries it belongs to: 1 for libpad, 2 for libpad2.
-/

namespace Ps2rd.Debugger

/-- libpad 2.1.1.0 to 2.7.0.0 -/
def padReadpattern0 : Pattern where
  seq :=
    [0x0080382d, 0x24030070, 0x2404001c, 0x70e31818, 0x00a42018, 0x27bdff00, 0x3c020000,
     0xff000000, 0xffbf0000, 0x24420000, 0x00000000, 0x00000000, 0x00000000, 0x00000000,
     0x00000000, 0x00000000, 0x00000000, 0x00000000, 0x0c000000]
  mask :=
    [0xffffffff, 0xffffffff, 0xffffffff, 0xffffffff, 0xffffffff, 0xffffff00, 0xffff0000,
     0xff000000, 0xffff0000, 0xffff0000, 0x00000000, 0x00000000, 0x00000000, 0x00000000,
     0x00000000, 0x00000000, 0x00000000, 0x00000000, 0xfc000000]
  tag := 1

/-- libpad 2.1.0.0 -/
def padReadpattern1 : Pattern where
  seq :=
    [0x0080382d, 0x24020060, 0x24040180, 0x00a21018, 0x70e42018, 0x27bdff00, 0x3c030000,
     0xff000000, 0xffbf0000, 0x24630000, 0x00000000, 0x00000000, 0x00000000, 0x00000000,
     0x00000000, 0x00000000, 0x00000000, 0x00000000, 0x0c000000]
  mask :=
    [0xffffffff, 0xffffffff, 0xffffffff, 0xffffffff, 0xffffffff, 0xffffff00, 0xffff0000,
     0xff000000, 0xffff0000, 0xffff0000, 0x00000000, 0x00000000, 0x00000000, 0x00000000,
     0x00000000, 0x00000000, 0x00000000, 0x00000000, 0xfc000000]
  tag := 1

/-- libpad 2.7.1.0 and 2.8.0.0 -/
def padReadpattern2 : Pattern where
  seq :=
    [0x27bdff00, 0x24030070, 0xffb10000, 0x3c020000, 0xffb20000, 0x0080882d, 0x00a0902d,
     0x2404001c, 0x72231818, 0x02442018, 0x00000000, 0x00000000, 0x00000000, 0x00000000,
     0x00000000, 0x00000000, 0x00000000, 0x00000000, 0x00000000, 0x00000000, 0x00000000,
     0x00000000, 0x0c000000]
  mask :=
    [0xffffff00, 0xffffffff, 0xffff0000, 0xffff0000, 0xffff0000, 0xffffffff, 0xffffffff,
     0xffffffff, 0xffffffff, 0xffffffff, 0x00000000, 0x00000000, 0x00000000, 0x00000000,
     0x00000000, 0x00000000, 0x00000000, 0x00000000, 0x00000000, 0x00000000, 0x00000000,
     0x00000000, 0xfc000000]
  tag := 1

/-- libpad 3.0.0.0 -/
def padReadpattern3 : Pattern where
  seq :=
    [0x27bdff00, 0x24030070, 0xffb10000, 0x3c020000, 0xffb20000, 0x0080882d, 0x00a0902d,
     0x2404001c, 0x72231818, 0x02442018, 0x00000000, 0x00000000, 0x00000000, 0x00000000,
     0x00000000, 0x00000000, 0x00000000, 0x00000000, 0x00000000, 0x00000000, 0x00000000,
     0x0c000000]
  mask :=
    [0xffffff00, 0xffffffff, 0xffff0000, 0xffff0000, 0xffff0000, 0xffffffff, 0xffffffff,
     0xffffffff, 0xffffffff, 0xffffffff, 0x00000000, 0x00000000, 0x00000000, 0x00000000,
     0x00000000, 0x00000000, 0x00000000, 0x00000000, 0x00000000, 0x00000000, 0x00000000,
     0xfc000000]
  tag := 1

/-- libpad 1.5.0.0 -/
def padReadpattern4 : Pattern where
  seq :=
    [0x27bdffc0, 0x00052900, 0x000421c0, 0x3c020000, 0x00a42821, 0xffb20020, 0xffb10010,
     0x24420000, 0xffbf0030, 0x00451021, 0xffb00000, 0x00c0902d, 0x8c50000c, 0x24050100,
     0x0c000000]
  mask :=
    [0xffffffff, 0xffffffff, 0xffffffff, 0xffff0000, 0xffffffff, 0xffffffff, 0xffffffff,
     0xffff0000, 0xffffffff, 0xffffffff, 0xffffffff, 0xffffffff, 0xffffffff, 0xffffffff,
     0xfc000000]
  tag := 1

/-- libpad 1.6.2.0 and 1.6.3.0 -/
def padReadpattern5 : Pattern where
  seq :=
    [0x24020060, 0x24070300, 0x00a21818, 0x70872018, 0x27bdffc0, 0x3c020000, 0xffb20020,
     0x24420000, 0xffb10010, 0x00c0902d, 0x00641821, 0xffbf0030, 0xffb00000, 0x00621821,
     0x8c70000c, 0x24050100, 0x0c000000]
  mask :=
    [0xffffffff, 0xffffffff, 0xffffffff, 0xffffffff, 0xffffffff, 0xffff0000, 0xffffffff,
     0xffff0000, 0xffffffff, 0xffffffff, 0xffffffff, 0xffffffff, 0xffffffff, 0xffffffff,
     0xffffffff, 0xffffffff, 0xfc000000]
  tag := 1

/-- libpad 2.0.0.0 and 2.0.5.0 -/
def padReadpattern6 : Pattern where
  seq :=
    [0x24020060, 0x24030180, 0x00a22818, 0x70832018, 0x27bdffe0, 0x3c020000, 0xffbf0010,
     0x24420000, 0xffb00000, 0x00a42821, 0x00a22821, 0x8cb0000c, 0x0200202d, 0x0c000000]
  mask :=
    [0xffffffff, 0xffffffff, 0xffffffff, 0xffffffff, 0xffffffff, 0xffff0000, 0xffffffff,
     0xffff0000, 0xffffffff, 0xffffffff, 0xffffffff, 0xffffffff, 0xffffffff, 0xfc000000]
  tag := 1

/-- libpad 3.0.1.0 and 3.0.2.0 -/
def padReadpattern7 : Pattern where
  seq :=
    [0x27bdffb0, 0xffb20020, 0xffb10010, 0x00c0902d, 0xffb00000, 0x0080882d, 0xffb30030,
     0xffbf0040, 0x0c000000, 0x00a0802d, 0x00000000, 0x00000000, 0x00000000, 0x00000000,
     0x00000000, 0x00000000, 0x00000000, 0x00000000, 0x00000000, 0x00000000, 0x00000000,
     0x0c000000]
  mask :=
    [0xffffffff, 0xffffffff, 0xffffffff, 0xffffffff, 0xffff0000, 0xffffffff, 0xffffffff,
     0xffffffff, 0xfc000000, 0xffffffff, 0x00000000, 0x00000000, 0x00000000, 0x00000000,
     0x00000000, 0x00000000, 0x00000000, 0x00000000, 0x00000000, 0x00000000, 0x00000000,
     0xfc000000]
  tag := 1

/-- libpad2 2.4.0.0 to 3.0.2.0 -/
def pad2Readpattern0 : Pattern where
  seq :=
    [0x27bdffc0, 0x24020000, 0xffb10010, 0x3c030000, 0x0080882d, 0xffb20020, 0x02222018,
     0x24660000, 0xffbf0030, 0x00a0902d, 0x00000000, 0x00000000, 0x00000000, 0x00000000,
     0x00000000, 0x00000000, 0x00000000, 0x00000000, 0x00000000, 0x0c000000]
  mask :=
    [0xffffffff, 0xffff0000, 0xffffffff, 0xffff0000, 0xffffffff, 0xffffffff, 0xffffffff,
     0xffff0000, 0xffffffff, 0xffffffff, 0x00000000, 0x00000000, 0x00000000, 0x00000000,
     0x00000000, 0x00000000, 0x00000000, 0x00000000, 0x00000000, 0xfc000000]
  tag := 2

/-- `_sceSifLoadModule` -/
def loadModulepattern0 : Pattern where
  seq :=
    [0x27bdff80, 0xffb40050, 0xffb30040, 0x00e0a02d, 0xffb20030, 0x0100982d, 0xffb10020,
     0x00a0902d, 0xffb00010, 0x0080882d, 0xffbf0070, 0x00c0802d, 0x0c000000, 0xffb50060]
  mask :=
    [0xffffffff, 0xffffffff, 0xffffffff, 0xffffffff, 0xffffffff, 0xffffffff, 0xffffffff,
     0xffffffff, 0xffffffff, 0xffffffff, 0xffffffff, 0xffffffff, 0xfc000000, 0xffffffff]
  tag := 0

/-- `_padread_patterns` -/
def padreadPatterns : List Pattern :=
  [padReadpattern0, padReadpattern1, padReadpattern2, padReadpattern3, padReadpattern4,
    padReadpattern5, padReadpattern6, padReadpattern7, pad2Readpattern0]

/-- `_loadmodule_patterns` -/
def loadmodulePatterns : List Pattern := [loadModulepattern0]

end Ps2rd.Debugger
