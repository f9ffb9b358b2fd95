/-
  Characters that are not shown as themselves.

  A character is hidden when it has no image of its own:
  controls, format characters, private and unassigned code
  points, separators other than the space, and characters
  that extend the one before them, as Unicode 17 has them.

  Main declarations:
    * `Hidden.ranges`
    * `Hidden.contains`
-/

------------------------------------------------------------
-- Hidden Characters
------------------------------------------------------------

namespace BsonView

namespace Hidden

/-
  The code points of hidden characters, as ranges that
  include both ends, in ascending order.
-/
def ranges : List (Nat × Nat) :=
  [ (0x00000, 0x0001f), (0x0007f, 0x000a0),
    (0x000ad, 0x000ad), (0x00300, 0x0036f),
    (0x00378, 0x00379), (0x00380, 0x00383),
    (0x0038b, 0x0038b), (0x0038d, 0x0038d),
    (0x003a2, 0x003a2), (0x00483, 0x00489),
    (0x00530, 0x00530), (0x00557, 0x00558),
    (0x0058b, 0x0058c), (0x00590, 0x005bd),
    (0x005bf, 0x005bf), (0x005c1, 0x005c2),
    (0x005c4, 0x005c5), (0x005c7, 0x005cf),
    (0x005eb, 0x005ee), (0x005f5, 0x00605),
    (0x00610, 0x0061a), (0x0061c, 0x0061c),
    (0x0064b, 0x0065f), (0x00670, 0x00670),
    (0x006d6, 0x006dd), (0x006df, 0x006e4),
    (0x006e7, 0x006e8), (0x006ea, 0x006ed),
    (0x0070e, 0x0070f), (0x00711, 0x00711),
    (0x00730, 0x0074c), (0x007a6, 0x007b0),
    (0x007b2, 0x007bf), (0x007eb, 0x007f3),
    (0x007fb, 0x007fd), (0x00816, 0x00819),
    (0x0081b, 0x00823), (0x00825, 0x00827),
    (0x00829, 0x0082f), (0x0083f, 0x0083f),
    (0x00859, 0x0085d), (0x0085f, 0x0085f),
    (0x0086b, 0x0086f), (0x00890, 0x0089f),
    (0x008ca, 0x00902), (0x0093a, 0x0093a),
    (0x0093c, 0x0093c), (0x00941, 0x00948),
    (0x0094d, 0x0094d), (0x00951, 0x00957),
    (0x00962, 0x00963), (0x00981, 0x00981),
    (0x00984, 0x00984), (0x0098d, 0x0098e),
    (0x00991, 0x00992), (0x009a9, 0x009a9),
    (0x009b1, 0x009b1), (0x009b3, 0x009b5),
    (0x009ba, 0x009bc), (0x009be, 0x009be),
    (0x009c1, 0x009c6), (0x009c9, 0x009ca),
    (0x009cd, 0x009cd), (0x009cf, 0x009db),
    (0x009de, 0x009de), (0x009e2, 0x009e5),
    (0x009fe, 0x00a02), (0x00a04, 0x00a04),
    (0x00a0b, 0x00a0e), (0x00a11, 0x00a12),
    (0x00a29, 0x00a29), (0x00a31, 0x00a31),
    (0x00a34, 0x00a34), (0x00a37, 0x00a37),
    (0x00a3a, 0x00a3d), (0x00a41, 0x00a58),
    (0x00a5d, 0x00a5d), (0x00a5f, 0x00a65),
    (0x00a70, 0x00a71), (0x00a75, 0x00a75),
    (0x00a77, 0x00a82), (0x00a84, 0x00a84),
    (0x00a8e, 0x00a8e), (0x00a92, 0x00a92),
    (0x00aa9, 0x00aa9), (0x00ab1, 0x00ab1),
    (0x00ab4, 0x00ab4), (0x00aba, 0x00abc),
    (0x00ac1, 0x00ac8), (0x00aca, 0x00aca),
    (0x00acd, 0x00acf), (0x00ad1, 0x00adf),
    (0x00ae2, 0x00ae5), (0x00af2, 0x00af8),
    (0x00afa, 0x00b01), (0x00b04, 0x00b04),
    (0x00b0d, 0x00b0e), (0x00b11, 0x00b12),
    (0x00b29, 0x00b29), (0x00b31, 0x00b31),
    (0x00b34, 0x00b34), (0x00b3a, 0x00b3c),
    (0x00b3e, 0x00b3f), (0x00b41, 0x00b46),
    (0x00b49, 0x00b4a), (0x00b4d, 0x00b5b),
    (0x00b5e, 0x00b5e), (0x00b62, 0x00b65),
    (0x00b78, 0x00b82), (0x00b84, 0x00b84),
    (0x00b8b, 0x00b8d), (0x00b91, 0x00b91),
    (0x00b96, 0x00b98), (0x00b9b, 0x00b9b),
    (0x00b9d, 0x00b9d), (0x00ba0, 0x00ba2),
    (0x00ba5, 0x00ba7), (0x00bab, 0x00bad),
    (0x00bba, 0x00bbe), (0x00bc0, 0x00bc0),
    (0x00bc3, 0x00bc5), (0x00bc9, 0x00bc9),
    (0x00bcd, 0x00bcf), (0x00bd1, 0x00be5),
    (0x00bfb, 0x00c00), (0x00c04, 0x00c04),
    (0x00c0d, 0x00c0d), (0x00c11, 0x00c11),
    (0x00c29, 0x00c29), (0x00c3a, 0x00c3c),
    (0x00c3e, 0x00c40), (0x00c45, 0x00c57),
    (0x00c5b, 0x00c5b), (0x00c5e, 0x00c5f),
    (0x00c62, 0x00c65), (0x00c70, 0x00c76),
    (0x00c81, 0x00c81), (0x00c8d, 0x00c8d),
    (0x00c91, 0x00c91), (0x00ca9, 0x00ca9),
    (0x00cb4, 0x00cb4), (0x00cba, 0x00cbc),
    (0x00cbf, 0x00cc0), (0x00cc2, 0x00cc2),
    (0x00cc5, 0x00cdb), (0x00cdf, 0x00cdf),
    (0x00ce2, 0x00ce5), (0x00cf0, 0x00cf0),
    (0x00cf4, 0x00d01), (0x00d0d, 0x00d0d),
    (0x00d11, 0x00d11), (0x00d3b, 0x00d3c),
    (0x00d3e, 0x00d3e), (0x00d41, 0x00d45),
    (0x00d49, 0x00d49), (0x00d4d, 0x00d4d),
    (0x00d50, 0x00d53), (0x00d57, 0x00d57),
    (0x00d62, 0x00d65), (0x00d80, 0x00d81),
    (0x00d84, 0x00d84), (0x00d97, 0x00d99),
    (0x00db2, 0x00db2), (0x00dbc, 0x00dbc),
    (0x00dbe, 0x00dbf), (0x00dc7, 0x00dcf),
    (0x00dd2, 0x00dd7), (0x00ddf, 0x00de5),
    (0x00df0, 0x00df1), (0x00df5, 0x00e00),
    (0x00e31, 0x00e31), (0x00e34, 0x00e3e),
    (0x00e47, 0x00e4e), (0x00e5c, 0x00e80),
    (0x00e83, 0x00e83), (0x00e85, 0x00e85),
    (0x00e8b, 0x00e8b), (0x00ea4, 0x00ea4),
    (0x00ea6, 0x00ea6), (0x00eb1, 0x00eb1),
    (0x00eb4, 0x00ebc), (0x00ebe, 0x00ebf),
    (0x00ec5, 0x00ec5), (0x00ec7, 0x00ecf),
    (0x00eda, 0x00edb), (0x00ee0, 0x00eff),
    (0x00f18, 0x00f19), (0x00f35, 0x00f35),
    (0x00f37, 0x00f37), (0x00f39, 0x00f39),
    (0x00f48, 0x00f48), (0x00f6d, 0x00f7e),
    (0x00f80, 0x00f84), (0x00f86, 0x00f87),
    (0x00f8d, 0x00fbd), (0x00fc6, 0x00fc6),
    (0x00fcd, 0x00fcd), (0x00fdb, 0x00fff),
    (0x0102d, 0x01030), (0x01032, 0x01037),
    (0x01039, 0x0103a), (0x0103d, 0x0103e),
    (0x01058, 0x01059), (0x0105e, 0x01060),
    (0x01071, 0x01074), (0x01082, 0x01082),
    (0x01085, 0x01086), (0x0108d, 0x0108d),
    (0x0109d, 0x0109d), (0x010c6, 0x010c6),
    (0x010c8, 0x010cc), (0x010ce, 0x010cf),
    (0x01249, 0x01249), (0x0124e, 0x0124f),
    (0x01257, 0x01257), (0x01259, 0x01259),
    (0x0125e, 0x0125f), (0x01289, 0x01289),
    (0x0128e, 0x0128f), (0x012b1, 0x012b1),
    (0x012b6, 0x012b7), (0x012bf, 0x012bf),
    (0x012c1, 0x012c1), (0x012c6, 0x012c7),
    (0x012d7, 0x012d7), (0x01311, 0x01311),
    (0x01316, 0x01317), (0x0135b, 0x0135f),
    (0x0137d, 0x0137f), (0x0139a, 0x0139f),
    (0x013f6, 0x013f7), (0x013fe, 0x013ff),
    (0x01680, 0x01680), (0x0169d, 0x0169f),
    (0x016f9, 0x016ff), (0x01712, 0x0171e),
    (0x01732, 0x01734), (0x01737, 0x0173f),
    (0x01752, 0x0175f), (0x0176d, 0x0176d),
    (0x01771, 0x0177f), (0x017b4, 0x017b5),
    (0x017b7, 0x017bd), (0x017c6, 0x017c6),
    (0x017c9, 0x017d3), (0x017dd, 0x017df),
    (0x017ea, 0x017ef), (0x017fa, 0x017ff),
    (0x0180b, 0x0180f), (0x0181a, 0x0181f),
    (0x01879, 0x0187f), (0x01885, 0x01886),
    (0x018a9, 0x018a9), (0x018ab, 0x018af),
    (0x018f6, 0x018ff), (0x0191f, 0x01922),
    (0x01927, 0x01928), (0x0192c, 0x0192f),
    (0x01932, 0x01932), (0x01939, 0x0193f),
    (0x01941, 0x01943), (0x0196e, 0x0196f),
    (0x01975, 0x0197f), (0x019ac, 0x019af),
    (0x019ca, 0x019cf), (0x019db, 0x019dd),
    (0x01a17, 0x01a18), (0x01a1b, 0x01a1d),
    (0x01a56, 0x01a56), (0x01a58, 0x01a60),
    (0x01a62, 0x01a62), (0x01a65, 0x01a6c),
    (0x01a73, 0x01a7f), (0x01a8a, 0x01a8f),
    (0x01a9a, 0x01a9f), (0x01aae, 0x01b03),
    (0x01b34, 0x01b3d), (0x01b42, 0x01b44),
    (0x01b4d, 0x01b4d), (0x01b6b, 0x01b73),
    (0x01b80, 0x01b81), (0x01ba2, 0x01ba5),
    (0x01ba8, 0x01bad), (0x01be6, 0x01be6),
    (0x01be8, 0x01be9), (0x01bed, 0x01bed),
    (0x01bef, 0x01bfb), (0x01c2c, 0x01c33),
    (0x01c36, 0x01c3a), (0x01c4a, 0x01c4c),
    (0x01c8b, 0x01c8f), (0x01cbb, 0x01cbc),
    (0x01cc8, 0x01cd2), (0x01cd4, 0x01ce0),
    (0x01ce2, 0x01ce8), (0x01ced, 0x01ced),
    (0x01cf4, 0x01cf4), (0x01cf8, 0x01cf9),
    (0x01cfb, 0x01cff), (0x01dc0, 0x01dff),
    (0x01f16, 0x01f17), (0x01f1e, 0x01f1f),
    (0x01f46, 0x01f47), (0x01f4e, 0x01f4f),
    (0x01f58, 0x01f58), (0x01f5a, 0x01f5a),
    (0x01f5c, 0x01f5c), (0x01f5e, 0x01f5e),
    (0x01f7e, 0x01f7f), (0x01fb5, 0x01fb5),
    (0x01fc5, 0x01fc5), (0x01fd4, 0x01fd5),
    (0x01fdc, 0x01fdc), (0x01ff0, 0x01ff1),
    (0x01ff5, 0x01ff5), (0x01fff, 0x0200f),
    (0x02028, 0x0202f), (0x0205f, 0x0206f),
    (0x02072, 0x02073), (0x0208f, 0x0208f),
    (0x0209d, 0x0209f), (0x020c2, 0x020ff),
    (0x0218c, 0x0218f), (0x0242a, 0x0243f),
    (0x0244b, 0x0245f), (0x02b74, 0x02b75),
    (0x02cef, 0x02cf1), (0x02cf4, 0x02cf8),
    (0x02d26, 0x02d26), (0x02d28, 0x02d2c),
    (0x02d2e, 0x02d2f), (0x02d68, 0x02d6e),
    (0x02d71, 0x02d7f), (0x02d97, 0x02d9f),
    (0x02da7, 0x02da7), (0x02daf, 0x02daf),
    (0x02db7, 0x02db7), (0x02dbf, 0x02dbf),
    (0x02dc7, 0x02dc7), (0x02dcf, 0x02dcf),
    (0x02dd7, 0x02dd7), (0x02ddf, 0x02dff),
    (0x02e5e, 0x02e7f), (0x02e9a, 0x02e9a),
    (0x02ef4, 0x02eff), (0x02fd6, 0x02fef),
    (0x03000, 0x03000), (0x0302a, 0x0302f),
    (0x03040, 0x03040), (0x03097, 0x0309a),
    (0x03100, 0x03104), (0x03130, 0x03130),
    (0x0318f, 0x0318f), (0x031e6, 0x031ee),
    (0x0321f, 0x0321f), (0x0a48d, 0x0a48f),
    (0x0a4c7, 0x0a4cf), (0x0a62c, 0x0a63f),
    (0x0a66f, 0x0a672), (0x0a674, 0x0a67d),
    (0x0a69e, 0x0a69f), (0x0a6f0, 0x0a6f1),
    (0x0a6f8, 0x0a6ff), (0x0a7dd, 0x0a7f0),
    (0x0a802, 0x0a802), (0x0a806, 0x0a806),
    (0x0a80b, 0x0a80b), (0x0a825, 0x0a826),
    (0x0a82c, 0x0a82f), (0x0a83a, 0x0a83f),
    (0x0a878, 0x0a87f), (0x0a8c4, 0x0a8cd),
    (0x0a8da, 0x0a8f1), (0x0a8ff, 0x0a8ff),
    (0x0a926, 0x0a92d), (0x0a947, 0x0a951),
    (0x0a953, 0x0a95e), (0x0a97d, 0x0a982),
    (0x0a9b3, 0x0a9b3), (0x0a9b6, 0x0a9b9),
    (0x0a9bc, 0x0a9bd), (0x0a9c0, 0x0a9c0),
    (0x0a9ce, 0x0a9ce), (0x0a9da, 0x0a9dd),
    (0x0a9e5, 0x0a9e5), (0x0a9ff, 0x0a9ff),
    (0x0aa29, 0x0aa2e), (0x0aa31, 0x0aa32),
    (0x0aa35, 0x0aa3f), (0x0aa43, 0x0aa43),
    (0x0aa4c, 0x0aa4c), (0x0aa4e, 0x0aa4f),
    (0x0aa5a, 0x0aa5b), (0x0aa7c, 0x0aa7c),
    (0x0aab0, 0x0aab0), (0x0aab2, 0x0aab4),
    (0x0aab7, 0x0aab8), (0x0aabe, 0x0aabf),
    (0x0aac1, 0x0aac1), (0x0aac3, 0x0aada),
    (0x0aaec, 0x0aaed), (0x0aaf6, 0x0ab00),
    (0x0ab07, 0x0ab08), (0x0ab0f, 0x0ab10),
    (0x0ab17, 0x0ab1f), (0x0ab27, 0x0ab27),
    (0x0ab2f, 0x0ab2f), (0x0ab6c, 0x0ab6f),
    (0x0abe5, 0x0abe5), (0x0abe8, 0x0abe8),
    (0x0abed, 0x0abef), (0x0abfa, 0x0abff),
    (0x0d7a4, 0x0d7af), (0x0d7c7, 0x0d7ca),
    (0x0d7fc, 0x0d7ff), (0x0e000, 0x0f8ff),
    (0x0fa6e, 0x0fa6f), (0x0fada, 0x0faff),
    (0x0fb07, 0x0fb12), (0x0fb18, 0x0fb1c),
    (0x0fb1e, 0x0fb1e), (0x0fb37, 0x0fb37),
    (0x0fb3d, 0x0fb3d), (0x0fb3f, 0x0fb3f),
    (0x0fb42, 0x0fb42), (0x0fb45, 0x0fb45),
    (0x0fdd0, 0x0fdef), (0x0fe00, 0x0fe0f),
    (0x0fe1a, 0x0fe2f), (0x0fe53, 0x0fe53),
    (0x0fe67, 0x0fe67), (0x0fe6c, 0x0fe6f),
    (0x0fe75, 0x0fe75), (0x0fefd, 0x0ff00),
    (0x0ff9e, 0x0ff9f), (0x0ffbf, 0x0ffc1),
    (0x0ffc8, 0x0ffc9), (0x0ffd0, 0x0ffd1),
    (0x0ffd8, 0x0ffd9), (0x0ffdd, 0x0ffdf),
    (0x0ffe7, 0x0ffe7), (0x0ffef, 0x0fffb),
    (0x0fffe, 0x0ffff), (0x1000c, 0x1000c),
    (0x10027, 0x10027), (0x1003b, 0x1003b),
    (0x1003e, 0x1003e), (0x1004e, 0x1004f),
    (0x1005e, 0x1007f), (0x100fb, 0x100ff),
    (0x10103, 0x10106), (0x10134, 0x10136),
    (0x1018f, 0x1018f), (0x1019d, 0x1019f),
    (0x101a1, 0x101cf), (0x101fd, 0x1027f),
    (0x1029d, 0x1029f), (0x102d1, 0x102e0),
    (0x102fc, 0x102ff), (0x10324, 0x1032c),
    (0x1034b, 0x1034f), (0x10376, 0x1037f),
    (0x1039e, 0x1039e), (0x103c4, 0x103c7),
    (0x103d6, 0x103ff), (0x1049e, 0x1049f),
    (0x104aa, 0x104af), (0x104d4, 0x104d7),
    (0x104fc, 0x104ff), (0x10528, 0x1052f),
    (0x10564, 0x1056e), (0x1057b, 0x1057b),
    (0x1058b, 0x1058b), (0x10593, 0x10593),
    (0x10596, 0x10596), (0x105a2, 0x105a2),
    (0x105b2, 0x105b2), (0x105ba, 0x105ba),
    (0x105bd, 0x105bf), (0x105f4, 0x105ff),
    (0x10737, 0x1073f), (0x10756, 0x1075f),
    (0x10768, 0x1077f), (0x10786, 0x10786),
    (0x107b1, 0x107b1), (0x107bb, 0x107ff),
    (0x10806, 0x10807), (0x10809, 0x10809),
    (0x10836, 0x10836), (0x10839, 0x1083b),
    (0x1083d, 0x1083e), (0x10856, 0x10856),
    (0x1089f, 0x108a6), (0x108b0, 0x108df),
    (0x108f3, 0x108f3), (0x108f6, 0x108fa),
    (0x1091c, 0x1091e), (0x1093a, 0x1093e),
    (0x1095a, 0x1097f), (0x109b8, 0x109bb),
    (0x109d0, 0x109d1), (0x10a01, 0x10a0f),
    (0x10a14, 0x10a14), (0x10a18, 0x10a18),
    (0x10a36, 0x10a3f), (0x10a49, 0x10a4f),
    (0x10a59, 0x10a5f), (0x10aa0, 0x10abf),
    (0x10ae5, 0x10aea), (0x10af7, 0x10aff),
    (0x10b36, 0x10b38), (0x10b56, 0x10b57),
    (0x10b73, 0x10b77), (0x10b92, 0x10b98),
    (0x10b9d, 0x10ba8), (0x10bb0, 0x10bff),
    (0x10c49, 0x10c7f), (0x10cb3, 0x10cbf),
    (0x10cf3, 0x10cf9), (0x10d24, 0x10d2f),
    (0x10d3a, 0x10d3f), (0x10d66, 0x10d6d),
    (0x10d86, 0x10d8d), (0x10d90, 0x10e5f),
    (0x10e7f, 0x10e7f), (0x10eaa, 0x10eac),
    (0x10eae, 0x10eaf), (0x10eb2, 0x10ec1),
    (0x10ec8, 0x10ecf), (0x10ed9, 0x10eff),
    (0x10f28, 0x10f2f), (0x10f46, 0x10f50),
    (0x10f5a, 0x10f6f), (0x10f82, 0x10f85),
    (0x10f8a, 0x10faf), (0x10fcc, 0x10fdf),
    (0x10ff7, 0x10fff), (0x11001, 0x11001),
    (0x11038, 0x11046), (0x1104e, 0x11051),
    (0x11070, 0x11070), (0x11073, 0x11074),
    (0x11076, 0x11081), (0x110b3, 0x110b6),
    (0x110b9, 0x110ba), (0x110bd, 0x110bd),
    (0x110c2, 0x110cf), (0x110e9, 0x110ef),
    (0x110fa, 0x11102), (0x11127, 0x1112b),
    (0x1112d, 0x11135), (0x11148, 0x1114f),
    (0x11173, 0x11173), (0x11177, 0x11181),
    (0x111b6, 0x111be), (0x111c0, 0x111c0),
    (0x111c9, 0x111cc), (0x111cf, 0x111cf),
    (0x111e0, 0x111e0), (0x111f5, 0x111ff),
    (0x11212, 0x11212), (0x1122f, 0x11231),
    (0x11234, 0x11237), (0x1123e, 0x1123e),
    (0x11241, 0x1127f), (0x11287, 0x11287),
    (0x11289, 0x11289), (0x1128e, 0x1128e),
    (0x1129e, 0x1129e), (0x112aa, 0x112af),
    (0x112df, 0x112df), (0x112e3, 0x112ef),
    (0x112fa, 0x11301), (0x11304, 0x11304),
    (0x1130d, 0x1130e), (0x11311, 0x11312),
    (0x11329, 0x11329), (0x11331, 0x11331),
    (0x11334, 0x11334), (0x1133a, 0x1133c),
    (0x1133e, 0x1133e), (0x11340, 0x11340),
    (0x11345, 0x11346), (0x11349, 0x1134a),
    (0x1134d, 0x1134f), (0x11351, 0x1135c),
    (0x11364, 0x1137f), (0x1138a, 0x1138a),
    (0x1138c, 0x1138d), (0x1138f, 0x1138f),
    (0x113b6, 0x113b6), (0x113b8, 0x113b8),
    (0x113bb, 0x113c9), (0x113cb, 0x113cb),
    (0x113ce, 0x113d0), (0x113d2, 0x113d2),
    (0x113d6, 0x113d6), (0x113d9, 0x113ff),
    (0x11438, 0x1143f), (0x11442, 0x11444),
    (0x11446, 0x11446), (0x1145c, 0x1145c),
    (0x1145e, 0x1145e), (0x11462, 0x1147f),
    (0x114b0, 0x114b0), (0x114b3, 0x114b8),
    (0x114ba, 0x114ba), (0x114bd, 0x114bd),
    (0x114bf, 0x114c0), (0x114c2, 0x114c3),
    (0x114c8, 0x114cf), (0x114da, 0x1157f),
    (0x115af, 0x115af), (0x115b2, 0x115b7),
    (0x115bc, 0x115bd), (0x115bf, 0x115c0),
    (0x115dc, 0x115ff), (0x11633, 0x1163a),
    (0x1163d, 0x1163d), (0x1163f, 0x11640),
    (0x11645, 0x1164f), (0x1165a, 0x1165f),
    (0x1166d, 0x1167f), (0x116ab, 0x116ab),
    (0x116ad, 0x116ad), (0x116b0, 0x116b7),
    (0x116ba, 0x116bf), (0x116ca, 0x116cf),
    (0x116e4, 0x116ff), (0x1171b, 0x1171d),
    (0x1171f, 0x1171f), (0x11722, 0x11725),
    (0x11727, 0x1172f), (0x11747, 0x117ff),
    (0x1182f, 0x11837), (0x11839, 0x1183a),
    (0x1183c, 0x1189f), (0x118f3, 0x118fe),
    (0x11907, 0x11908), (0x1190a, 0x1190b),
    (0x11914, 0x11914), (0x11917, 0x11917),
    (0x11930, 0x11930), (0x11936, 0x11936),
    (0x11939, 0x1193e), (0x11943, 0x11943),
    (0x11947, 0x1194f), (0x1195a, 0x1199f),
    (0x119a8, 0x119a9), (0x119d4, 0x119db),
    (0x119e0, 0x119e0), (0x119e5, 0x119ff),
    (0x11a01, 0x11a0a), (0x11a33, 0x11a38),
    (0x11a3b, 0x11a3e), (0x11a47, 0x11a4f),
    (0x11a51, 0x11a56), (0x11a59, 0x11a5b),
    (0x11a8a, 0x11a96), (0x11a98, 0x11a99),
    (0x11aa3, 0x11aaf), (0x11af9, 0x11aff),
    (0x11b0a, 0x11b60), (0x11b62, 0x11b64),
    (0x11b66, 0x11b66), (0x11b68, 0x11bbf),
    (0x11be2, 0x11bef), (0x11bfa, 0x11bff),
    (0x11c09, 0x11c09), (0x11c30, 0x11c3d),
    (0x11c3f, 0x11c3f), (0x11c46, 0x11c4f),
    (0x11c6d, 0x11c6f), (0x11c90, 0x11ca8),
    (0x11caa, 0x11cb0), (0x11cb2, 0x11cb3),
    (0x11cb5, 0x11cff), (0x11d07, 0x11d07),
    (0x11d0a, 0x11d0a), (0x11d31, 0x11d45),
    (0x11d47, 0x11d4f), (0x11d5a, 0x11d5f),
    (0x11d66, 0x11d66), (0x11d69, 0x11d69),
    (0x11d8f, 0x11d92), (0x11d95, 0x11d95),
    (0x11d97, 0x11d97), (0x11d99, 0x11d9f),
    (0x11daa, 0x11daf), (0x11ddc, 0x11ddf),
    (0x11dea, 0x11edf), (0x11ef3, 0x11ef4),
    (0x11ef9, 0x11f01), (0x11f11, 0x11f11),
    (0x11f36, 0x11f3d), (0x11f40, 0x11f42),
    (0x11f5a, 0x11faf), (0x11fb1, 0x11fbf),
    (0x11ff2, 0x11ffe), (0x1239a, 0x123ff),
    (0x1246f, 0x1246f), (0x12475, 0x1247f),
    (0x12544, 0x12f8f), (0x12ff3, 0x12fff),
    (0x13430, 0x13440), (0x13447, 0x1345f),
    (0x143fb, 0x143ff), (0x14647, 0x160ff),
    (0x1611e, 0x16129), (0x1612d, 0x1612f),
    (0x1613a, 0x167ff), (0x16a39, 0x16a3f),
    (0x16a5f, 0x16a5f), (0x16a6a, 0x16a6d),
    (0x16abf, 0x16abf), (0x16aca, 0x16acf),
    (0x16aee, 0x16af4), (0x16af6, 0x16aff),
    (0x16b30, 0x16b36), (0x16b46, 0x16b4f),
    (0x16b5a, 0x16b5a), (0x16b62, 0x16b62),
    (0x16b78, 0x16b7c), (0x16b90, 0x16d3f),
    (0x16d7a, 0x16e3f), (0x16e9b, 0x16e9f),
    (0x16eb9, 0x16eba), (0x16ed4, 0x16eff),
    (0x16f4b, 0x16f4f), (0x16f88, 0x16f92),
    (0x16fa0, 0x16fdf), (0x16fe4, 0x16ff1),
    (0x16ff7, 0x16fff), (0x18cd6, 0x18cfe),
    (0x18d1f, 0x18d7f), (0x18df3, 0x1afef),
    (0x1aff4, 0x1aff4), (0x1affc, 0x1affc),
    (0x1afff, 0x1afff), (0x1b123, 0x1b131),
    (0x1b133, 0x1b14f), (0x1b153, 0x1b154),
    (0x1b156, 0x1b163), (0x1b168, 0x1b16f),
    (0x1b2fc, 0x1bbff), (0x1bc6b, 0x1bc6f),
    (0x1bc7d, 0x1bc7f), (0x1bc89, 0x1bc8f),
    (0x1bc9a, 0x1bc9b), (0x1bc9d, 0x1bc9e),
    (0x1bca0, 0x1cbff), (0x1ccfd, 0x1ccff),
    (0x1ceb4, 0x1ceb9), (0x1ced1, 0x1cedf),
    (0x1cef1, 0x1cf4f), (0x1cfc4, 0x1cfff),
    (0x1d0f6, 0x1d0ff), (0x1d127, 0x1d128),
    (0x1d165, 0x1d169), (0x1d16d, 0x1d182),
    (0x1d185, 0x1d18b), (0x1d1aa, 0x1d1ad),
    (0x1d1eb, 0x1d1ff), (0x1d242, 0x1d244),
    (0x1d246, 0x1d2bf), (0x1d2d4, 0x1d2df),
    (0x1d2f4, 0x1d2ff), (0x1d357, 0x1d35f),
    (0x1d379, 0x1d3ff), (0x1d455, 0x1d455),
    (0x1d49d, 0x1d49d), (0x1d4a0, 0x1d4a1),
    (0x1d4a3, 0x1d4a4), (0x1d4a7, 0x1d4a8),
    (0x1d4ad, 0x1d4ad), (0x1d4ba, 0x1d4ba),
    (0x1d4bc, 0x1d4bc), (0x1d4c4, 0x1d4c4),
    (0x1d506, 0x1d506), (0x1d50b, 0x1d50c),
    (0x1d515, 0x1d515), (0x1d51d, 0x1d51d),
    (0x1d53a, 0x1d53a), (0x1d53f, 0x1d53f),
    (0x1d545, 0x1d545), (0x1d547, 0x1d549),
    (0x1d551, 0x1d551), (0x1d6a6, 0x1d6a7),
    (0x1d7cc, 0x1d7cd), (0x1da00, 0x1da36),
    (0x1da3b, 0x1da6c), (0x1da75, 0x1da75),
    (0x1da84, 0x1da84), (0x1da8c, 0x1deff),
    (0x1df1f, 0x1df24), (0x1df2b, 0x1e02f),
    (0x1e06e, 0x1e0ff), (0x1e12d, 0x1e136),
    (0x1e13e, 0x1e13f), (0x1e14a, 0x1e14d),
    (0x1e150, 0x1e28f), (0x1e2ae, 0x1e2bf),
    (0x1e2ec, 0x1e2ef), (0x1e2fa, 0x1e2fe),
    (0x1e300, 0x1e4cf), (0x1e4ec, 0x1e4ef),
    (0x1e4fa, 0x1e5cf), (0x1e5ee, 0x1e5ef),
    (0x1e5fb, 0x1e5fe), (0x1e600, 0x1e6bf),
    (0x1e6df, 0x1e6df), (0x1e6e3, 0x1e6e3),
    (0x1e6e6, 0x1e6e6), (0x1e6ee, 0x1e6ef),
    (0x1e6f5, 0x1e6fd), (0x1e700, 0x1e7df),
    (0x1e7e7, 0x1e7e7), (0x1e7ec, 0x1e7ec),
    (0x1e7ef, 0x1e7ef), (0x1e7ff, 0x1e7ff),
    (0x1e8c5, 0x1e8c6), (0x1e8d0, 0x1e8ff),
    (0x1e944, 0x1e94a), (0x1e94c, 0x1e94f),
    (0x1e95a, 0x1e95d), (0x1e960, 0x1ec70),
    (0x1ecb5, 0x1ed00), (0x1ed3e, 0x1edff),
    (0x1ee04, 0x1ee04), (0x1ee20, 0x1ee20),
    (0x1ee23, 0x1ee23), (0x1ee25, 0x1ee26),
    (0x1ee28, 0x1ee28), (0x1ee33, 0x1ee33),
    (0x1ee38, 0x1ee38), (0x1ee3a, 0x1ee3a),
    (0x1ee3c, 0x1ee41), (0x1ee43, 0x1ee46),
    (0x1ee48, 0x1ee48), (0x1ee4a, 0x1ee4a),
    (0x1ee4c, 0x1ee4c), (0x1ee50, 0x1ee50),
    (0x1ee53, 0x1ee53), (0x1ee55, 0x1ee56),
    (0x1ee58, 0x1ee58), (0x1ee5a, 0x1ee5a),
    (0x1ee5c, 0x1ee5c), (0x1ee5e, 0x1ee5e),
    (0x1ee60, 0x1ee60), (0x1ee63, 0x1ee63),
    (0x1ee65, 0x1ee66), (0x1ee6b, 0x1ee6b),
    (0x1ee73, 0x1ee73), (0x1ee78, 0x1ee78),
    (0x1ee7d, 0x1ee7d), (0x1ee7f, 0x1ee7f),
    (0x1ee8a, 0x1ee8a), (0x1ee9c, 0x1eea0),
    (0x1eea4, 0x1eea4), (0x1eeaa, 0x1eeaa),
    (0x1eebc, 0x1eeef), (0x1eef2, 0x1efff),
    (0x1f02c, 0x1f02f), (0x1f094, 0x1f09f),
    (0x1f0af, 0x1f0b0), (0x1f0c0, 0x1f0c0),
    (0x1f0d0, 0x1f0d0), (0x1f0f6, 0x1f0ff),
    (0x1f1ae, 0x1f1e5), (0x1f203, 0x1f20f),
    (0x1f23c, 0x1f23f), (0x1f249, 0x1f24f),
    (0x1f252, 0x1f25f), (0x1f266, 0x1f2ff),
    (0x1f6d9, 0x1f6db), (0x1f6ed, 0x1f6ef),
    (0x1f6fd, 0x1f6ff), (0x1f7da, 0x1f7df),
    (0x1f7ec, 0x1f7ef), (0x1f7f1, 0x1f7ff),
    (0x1f80c, 0x1f80f), (0x1f848, 0x1f84f),
    (0x1f85a, 0x1f85f), (0x1f888, 0x1f88f),
    (0x1f8ae, 0x1f8af), (0x1f8bc, 0x1f8bf),
    (0x1f8c2, 0x1f8cf), (0x1f8d9, 0x1f8ff),
    (0x1fa58, 0x1fa5f), (0x1fa6e, 0x1fa6f),
    (0x1fa7d, 0x1fa7f), (0x1fa8b, 0x1fa8d),
    (0x1fac7, 0x1fac7), (0x1fac9, 0x1facc),
    (0x1fadd, 0x1fade), (0x1faeb, 0x1faee),
    (0x1faf9, 0x1faff), (0x1fb93, 0x1fb93),
    (0x1fbfb, 0x1ffff), (0x2a6e0, 0x2a6ff),
    (0x2b81e, 0x2b81f), (0x2ceae, 0x2ceaf),
    (0x2ebe1, 0x2ebef), (0x2ee5e, 0x2f7ff),
    (0x2fa1e, 0x2ffff), (0x3134b, 0x3134f),
    (0x3347a, 0x10ffff) ]

/- Whether a character is hidden. -/
def contains (c : Char) : Bool :=
  ranges.any fun range =>
    range.1 ≤ c.toNat && c.toNat ≤ range.2

end Hidden

end BsonView
