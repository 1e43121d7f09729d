import MultiversionBalancer.Http2.Handlers

/-!
# Huffman codes

The tables and the encoder of `ngx_http_huff_encode.c`, and the table of
`ngx_http_huff_decode.c`.  A machine word has 64 bits.
-/

namespace MultiversionBalancer.Http2

set_option maxRecDepth 4000

/-- `ngx_http_huff_encode_table`: codes with their lengths. -/
def huffEncodeTable : List (ℕ × ℕ) :=
  [
    (0x00001ff8, 13), (0x007fffd8, 23), (0x0fffffe2, 28), (0x0fffffe3, 28),
    (0x0fffffe4, 28), (0x0fffffe5, 28), (0x0fffffe6, 28), (0x0fffffe7, 28),
    (0x0fffffe8, 28), (0x00ffffea, 24), (0x3ffffffc, 30), (0x0fffffe9, 28),
    (0x0fffffea, 28), (0x3ffffffd, 30), (0x0fffffeb, 28), (0x0fffffec, 28),
    (0x0fffffed, 28), (0x0fffffee, 28), (0x0fffffef, 28), (0x0ffffff0, 28),
    (0x0ffffff1, 28), (0x0ffffff2, 28), (0x3ffffffe, 30), (0x0ffffff3, 28),
    (0x0ffffff4, 28), (0x0ffffff5, 28), (0x0ffffff6, 28), (0x0ffffff7, 28),
    (0x0ffffff8, 28), (0x0ffffff9, 28), (0x0ffffffa, 28), (0x0ffffffb, 28),
    (0x00000014, 6), (0x000003f8, 10), (0x000003f9, 10), (0x00000ffa, 12),
    (0x00001ff9, 13), (0x00000015, 6), (0x000000f8, 8), (0x000007fa, 11),
    (0x000003fa, 10), (0x000003fb, 10), (0x000000f9, 8), (0x000007fb, 11),
    (0x000000fa, 8), (0x00000016, 6), (0x00000017, 6), (0x00000018, 6),
    (0x00000000, 5), (0x00000001, 5), (0x00000002, 5), (0x00000019, 6),
    (0x0000001a, 6), (0x0000001b, 6), (0x0000001c, 6), (0x0000001d, 6),
    (0x0000001e, 6), (0x0000001f, 6), (0x0000005c, 7), (0x000000fb, 8),
    (0x00007ffc, 15), (0x00000020, 6), (0x00000ffb, 12), (0x000003fc, 10),
    (0x00001ffa, 13), (0x00000021, 6), (0x0000005d, 7), (0x0000005e, 7),
    (0x0000005f, 7), (0x00000060, 7), (0x00000061, 7), (0x00000062, 7),
    (0x00000063, 7), (0x00000064, 7), (0x00000065, 7), (0x00000066, 7),
    (0x00000067, 7), (0x00000068, 7), (0x00000069, 7), (0x0000006a, 7),
    (0x0000006b, 7), (0x0000006c, 7), (0x0000006d, 7), (0x0000006e, 7),
    (0x0000006f, 7), (0x00000070, 7), (0x00000071, 7), (0x00000072, 7),
    (0x000000fc, 8), (0x00000073, 7), (0x000000fd, 8), (0x00001ffb, 13),
    (0x0007fff0, 19), (0x00001ffc, 13), (0x00003ffc, 14), (0x00000022, 6),
    (0x00007ffd, 15), (0x00000003, 5), (0x00000023, 6), (0x00000004, 5),
    (0x00000024, 6), (0x00000005, 5), (0x00000025, 6), (0x00000026, 6),
    (0x00000027, 6), (0x00000006, 5), (0x00000074, 7), (0x00000075, 7),
    (0x00000028, 6), (0x00000029, 6), (0x0000002a, 6), (0x00000007, 5),
    (0x0000002b, 6), (0x00000076, 7), (0x0000002c, 6), (0x00000008, 5),
    (0x00000009, 5), (0x0000002d, 6), (0x00000077, 7), (0x00000078, 7),
    (0x00000079, 7), (0x0000007a, 7), (0x0000007b, 7), (0x00007ffe, 15),
    (0x000007fc, 11), (0x00003ffd, 14), (0x00001ffd, 13), (0x0ffffffc, 28),
    (0x000fffe6, 20), (0x003fffd2, 22), (0x000fffe7, 20), (0x000fffe8, 20),
    (0x003fffd3, 22), (0x003fffd4, 22), (0x003fffd5, 22), (0x007fffd9, 23),
    (0x003fffd6, 22), (0x007fffda, 23), (0x007fffdb, 23), (0x007fffdc, 23),
    (0x007fffdd, 23), (0x007fffde, 23), (0x00ffffeb, 24), (0x007fffdf, 23),
    (0x00ffffec, 24), (0x00ffffed, 24), (0x003fffd7, 22), (0x007fffe0, 23),
    (0x00ffffee, 24), (0x007fffe1, 23), (0x007fffe2, 23), (0x007fffe3, 23),
    (0x007fffe4, 23), (0x001fffdc, 21), (0x003fffd8, 22), (0x007fffe5, 23),
    (0x003fffd9, 22), (0x007fffe6, 23), (0x007fffe7, 23), (0x00ffffef, 24),
    (0x003fffda, 22), (0x001fffdd, 21), (0x000fffe9, 20), (0x003fffdb, 22),
    (0x003fffdc, 22), (0x007fffe8, 23), (0x007fffe9, 23), (0x001fffde, 21),
    (0x007fffea, 23), (0x003fffdd, 22), (0x003fffde, 22), (0x00fffff0, 24),
    (0x001fffdf, 21), (0x003fffdf, 22), (0x007fffeb, 23), (0x007fffec, 23),
    (0x001fffe0, 21), (0x001fffe1, 21), (0x003fffe0, 22), (0x001fffe2, 21),
    (0x007fffed, 23), (0x003fffe1, 22), (0x007fffee, 23), (0x007fffef, 23),
    (0x000fffea, 20), (0x003fffe2, 22), (0x003fffe3, 22), (0x003fffe4, 22),
    (0x007ffff0, 23), (0x003fffe5, 22), (0x003fffe6, 22), (0x007ffff1, 23),
    (0x03ffffe0, 26), (0x03ffffe1, 26), (0x000fffeb, 20), (0x0007fff1, 19),
    (0x003fffe7, 22), (0x007ffff2, 23), (0x003fffe8, 22), (0x01ffffec, 25),
    (0x03ffffe2, 26), (0x03ffffe3, 26), (0x03ffffe4, 26), (0x07ffffde, 27),
    (0x07ffffdf, 27), (0x03ffffe5, 26), (0x00fffff1, 24), (0x01ffffed, 25),
    (0x0007fff2, 19), (0x001fffe3, 21), (0x03ffffe6, 26), (0x07ffffe0, 27),
    (0x07ffffe1, 27), (0x03ffffe7, 26), (0x07ffffe2, 27), (0x00fffff2, 24),
    (0x001fffe4, 21), (0x001fffe5, 21), (0x03ffffe8, 26), (0x03ffffe9, 26),
    (0x0ffffffd, 28), (0x07ffffe3, 27), (0x07ffffe4, 27), (0x07ffffe5, 27),
    (0x000fffec, 20), (0x00fffff3, 24), (0x000fffed, 20), (0x001fffe6, 21),
    (0x003fffe9, 22), (0x001fffe7, 21), (0x001fffe8, 21), (0x007ffff3, 23),
    (0x003fffea, 22), (0x003fffeb, 22), (0x01ffffee, 25), (0x01ffffef, 25),
    (0x00fffff4, 24), (0x00fffff5, 24), (0x03ffffea, 26), (0x007ffff4, 23),
    (0x03ffffeb, 26), (0x07ffffe6, 27), (0x03ffffec, 26), (0x03ffffed, 26),
    (0x07ffffe7, 27), (0x07ffffe8, 27), (0x07ffffe9, 27), (0x07ffffea, 27),
    (0x07ffffeb, 27), (0x0ffffffe, 28), (0x07ffffec, 27), (0x07ffffed, 27),
    (0x07ffffee, 27), (0x07ffffef, 27), (0x07fffff0, 27), (0x03ffffee, 26)]

def huffEncodeTableLc : List (ℕ × ℕ) :=
  [
    (0x00001ff8, 13), (0x007fffd8, 23), (0x0fffffe2, 28), (0x0fffffe3, 28),
    (0x0fffffe4, 28), (0x0fffffe5, 28), (0x0fffffe6, 28), (0x0fffffe7, 28),
    (0x0fffffe8, 28), (0x00ffffea, 24), (0x3ffffffc, 30), (0x0fffffe9, 28),
    (0x0fffffea, 28), (0x3ffffffd, 30), (0x0fffffeb, 28), (0x0fffffec, 28),
    (0x0fffffed, 28), (0x0fffffee, 28), (0x0fffffef, 28), (0x0ffffff0, 28),
    (0x0ffffff1, 28), (0x0ffffff2, 28), (0x3ffffffe, 30), (0x0ffffff3, 28),
    (0x0ffffff4, 28), (0x0ffffff5, 28), (0x0ffffff6, 28), (0x0ffffff7, 28),
    (0x0ffffff8, 28), (0x0ffffff9, 28), (0x0ffffffa, 28), (0x0ffffffb, 28),
    (0x00000014, 6), (0x000003f8, 10), (0x000003f9, 10), (0x00000ffa, 12),
    (0x00001ff9, 13), (0x00000015, 6), (0x000000f8, 8), (0x000007fa, 11),
    (0x000003fa, 10), (0x000003fb, 10), (0x000000f9, 8), (0x000007fb, 11),
    (0x000000fa, 8), (0x00000016, 6), (0x00000017, 6), (0x00000018, 6),
    (0x00000000, 5), (0x00000001, 5), (0x00000002, 5), (0x00000019, 6),
    (0x0000001a, 6), (0x0000001b, 6), (0x0000001c, 6), (0x0000001d, 6),
    (0x0000001e, 6), (0x0000001f, 6), (0x0000005c, 7), (0x000000fb, 8),
    (0x00007ffc, 15), (0x00000020, 6), (0x00000ffb, 12), (0x000003fc, 10),
    (0x00001ffa, 13), (0x00000003, 5), (0x00000023, 6), (0x00000004, 5),
    (0x00000024, 6), (0x00000005, 5), (0x00000025, 6), (0x00000026, 6),
    (0x00000027, 6), (0x00000006, 5), (0x00000074, 7), (0x00000075, 7),
    (0x00000028, 6), (0x00000029, 6), (0x0000002a, 6), (0x00000007, 5),
    (0x0000002b, 6), (0x00000076, 7), (0x0000002c, 6), (0x00000008, 5),
    (0x00000009, 5), (0x0000002d, 6), (0x00000077, 7), (0x00000078, 7),
    (0x00000079, 7), (0x0000007a, 7), (0x0000007b, 7), (0x00001ffb, 13),
    (0x0007fff0, 19), (0x00001ffc, 13), (0x00003ffc, 14), (0x00000022, 6),
    (0x00007ffd, 15), (0x00000003, 5), (0x00000023, 6), (0x00000004, 5),
    (0x00000024, 6), (0x00000005, 5), (0x00000025, 6), (0x00000026, 6),
    (0x00000027, 6), (0x00000006, 5), (0x00000074, 7), (0x00000075, 7),
    (0x00000028, 6), (0x00000029, 6), (0x0000002a, 6), (0x00000007, 5),
    (0x0000002b, 6), (0x00000076, 7), (0x0000002c, 6), (0x00000008, 5),
    (0x00000009, 5), (0x0000002d, 6), (0x00000077, 7), (0x00000078, 7),
    (0x00000079, 7), (0x0000007a, 7), (0x0000007b, 7), (0x00007ffe, 15),
    (0x000007fc, 11), (0x00003ffd, 14), (0x00001ffd, 13), (0x0ffffffc, 28),
    (0x000fffe6, 20), (0x003fffd2, 22), (0x000fffe7, 20), (0x000fffe8, 20),
    (0x003fffd3, 22), (0x003fffd4, 22), (0x003fffd5, 22), (0x007fffd9, 23),
    (0x003fffd6, 22), (0x007fffda, 23), (0x007fffdb, 23), (0x007fffdc, 23),
    (0x007fffdd, 23), (0x007fffde, 23), (0x00ffffeb, 24), (0x007fffdf, 23),
    (0x00ffffec, 24), (0x00ffffed, 24), (0x003fffd7, 22), (0x007fffe0, 23),
    (0x00ffffee, 24), (0x007fffe1, 23), (0x007fffe2, 23), (0x007fffe3, 23),
    (0x007fffe4, 23), (0x001fffdc, 21), (0x003fffd8, 22), (0x007fffe5, 23),
    (0x003fffd9, 22), (0x007fffe6, 23), (0x007fffe7, 23), (0x00ffffef, 24),
    (0x003fffda, 22), (0x001fffdd, 21), (0x000fffe9, 20), (0x003fffdb, 22),
    (0x003fffdc, 22), (0x007fffe8, 23), (0x007fffe9, 23), (0x001fffde, 21),
    (0x007fffea, 23), (0x003fffdd, 22), (0x003fffde, 22), (0x00fffff0, 24),
    (0x001fffdf, 21), (0x003fffdf, 22), (0x007fffeb, 23), (0x007fffec, 23),
    (0x001fffe0, 21), (0x001fffe1, 21), (0x003fffe0, 22), (0x001fffe2, 21),
    (0x007fffed, 23), (0x003fffe1, 22), (0x007fffee, 23), (0x007fffef, 23),
    (0x000fffea, 20), (0x003fffe2, 22), (0x003fffe3, 22), (0x003fffe4, 22),
    (0x007ffff0, 23), (0x003fffe5, 22), (0x003fffe6, 22), (0x007ffff1, 23),
    (0x03ffffe0, 26), (0x03ffffe1, 26), (0x000fffeb, 20), (0x0007fff1, 19),
    (0x003fffe7, 22), (0x007ffff2, 23), (0x003fffe8, 22), (0x01ffffec, 25),
    (0x03ffffe2, 26), (0x03ffffe3, 26), (0x03ffffe4, 26), (0x07ffffde, 27),
    (0x07ffffdf, 27), (0x03ffffe5, 26), (0x00fffff1, 24), (0x01ffffed, 25),
    (0x0007fff2, 19), (0x001fffe3, 21), (0x03ffffe6, 26), (0x07ffffe0, 27),
    (0x07ffffe1, 27), (0x03ffffe7, 26), (0x07ffffe2, 27), (0x00fffff2, 24),
    (0x001fffe4, 21), (0x001fffe5, 21), (0x03ffffe8, 26), (0x03ffffe9, 26),
    (0x0ffffffd, 28), (0x07ffffe3, 27), (0x07ffffe4, 27), (0x07ffffe5, 27),
    (0x000fffec, 20), (0x00fffff3, 24), (0x000fffed, 20), (0x001fffe6, 21),
    (0x003fffe9, 22), (0x001fffe7, 21), (0x001fffe8, 21), (0x007ffff3, 23),
    (0x003fffea, 22), (0x003fffeb, 22), (0x01ffffee, 25), (0x01ffffef, 25),
    (0x00fffff4, 24), (0x00fffff5, 24), (0x03ffffea, 26), (0x007ffff4, 23),
    (0x03ffffeb, 26), (0x07ffffe6, 27), (0x03ffffec, 26), (0x03ffffed, 26),
    (0x07ffffe7, 27), (0x07ffffe8, 27), (0x07ffffe9, 27), (0x07ffffea, 27),
    (0x07ffffeb, 27), (0x0ffffffe, 28), (0x07ffffec, 27), (0x07ffffed, 27),
    (0x07ffffee, 27), (0x07ffffef, 27), (0x07fffff0, 27), (0x03ffffee, 26)]

/-- `ngx_http_huff_decode_codes`: a row for each state, with eight codes in each of
two numbers.  The bytes of a code are `next`, `emit`, `sym` and `ending`. -/
def huffDecodeRows : List (ℕ × ℕ) :=
  [
    (0x040000000500000007000000080000000b0000000c0000001000000013000000,
     0x190000001c00000020000000230000002a000000310000003900000040000001),
    (0x0001300100013101000132010001610100016301000165010001690100016f01,
     0x00017301000174010d0000000e00000011000000120000001400000015000000),
    (0x0101300016013001010131001601310101013200160132010101610016016101,
     0x01016300160163010101650016016501010169001601690101016f0016016f01),
    (0x0201300009013000170130002801300102013100090131001701310028013101,
     0x0201320009013200170132002801320102016100090161001701610028016101),
    (0x03013000060130000a0130000f013000180130001f0130002901300038013001,
     0x03013100060131000a0131000f013100180131001f0131002901310038013101),
    (0x03013200060132000a0132000f013200180132001f0132002901320038013201,
     0x03016100060161000a0161000f016100180161001f0161002901610038016101),
    (0x0201630009016300170163002801630102016500090165001701650028016501,
     0x0201690009016900170169002801690102016f0009016f0017016f0028016f01),
    (0x03016300060163000a0163000f016300180163001f0163002901630038016301,
     0x03016500060165000a0165000f016500180165001f0165002901650038016501),
    (0x03016900060169000a0169000f016900180169001f0169002901690038016901,
     0x03016f0006016f000a016f000f016f0018016f001f016f0029016f0038016f01),
    (0x01017300160173010101740016017401000120010001250100012d0100012e01,
     0x00012f0100013301000134010001350100013601000137010001380100013901),
    (0x0201730009017300170173002801730102017400090174001701740028017401,
     0x0101200016012001010125001601250101012d0016012d0101012e0016012e01),
    (0x03017300060173000a0173000f017300180173001f0173002901730038017301,
     0x03017400060174000a0174000f017400180174001f0174002901740038017401),
    (0x0201200009012000170120002801200102012500090125001701250028012501,
     0x02012d0009012d0017012d0028012d0102012e0009012e0017012e0028012e01),
    (0x03012000060120000a0120000f012000180120001f0120002901200038012001,
     0x03012500060125000a0125000f012500180125001f0125002901250038012501),
    (0x03012d0006012d000a012d000f012d0018012d001f012d0029012d0038012d01,
     0x03012e0006012e000a012e000f012e0018012e001f012e0029012e0038012e01),
    (0x01012f0016012f01010133001601330101013400160134010101350016013501,
     0x0101360016013601010137001601370101013800160138010101390016013901),
    (0x02012f0009012f0017012f0028012f0102013300090133001701330028013301,
     0x0201340009013400170134002801340102013500090135001701350028013501),
    (0x03012f0006012f000a012f000f012f0018012f001f012f0029012f0038012f01,
     0x03013300060133000a0133000f013300180133001f0133002901330038013301),
    (0x03013400060134000a0134000f013400180134001f0134002901340038013401,
     0x03013500060135000a0135000f013500180135001f0135002901350038013501),
    (0x0201360009013600170136002801360102013700090137001701370028013701,
     0x0201380009013800170138002801380102013900090139001701390028013901),
    (0x03013600060136000a0136000f013600180136001f0136002901360038013601,
     0x03013700060137000a0137000f013700180137001f0137002901370038013701),
    (0x03013800060138000a0138000f013800180138001f0138002901380038013801,
     0x03013900060139000a0139000f013900180139001f0139002901390038013901),
    (0x1a0000001b0000001d0000001e00000021000000220000002400000025000000,
     0x2b0000002e00000032000000350000003a0000003d0000004100000044000001),
    (0x00013d010001410100015f010001620100016401000166010001670100016801,
     0x00016c0100016d0100016e010001700100017201000175012600000027000000),
    (0x01013d0016013d01010141001601410101015f0016015f010101620016016201,
     0x0101640016016401010166001601660101016700160167010101680016016801),
    (0x02013d0009013d0017013d0028013d0102014100090141001701410028014101,
     0x02015f0009015f0017015f0028015f0102016200090162001701620028016201),
    (0x03013d0006013d000a013d000f013d0018013d001f013d0029013d0038013d01,
     0x03014100060141000a0141000f014100180141001f0141002901410038014101),
    (0x03015f0006015f000a015f000f015f0018015f001f015f0029015f0038015f01,
     0x03016200060162000a0162000f016200180162001f0162002901620038016201),
    (0x0201640009016400170164002801640102016600090166001701660028016601,
     0x0201670009016700170167002801670102016800090168001701680028016801),
    (0x03016400060164000a0164000f016400180164001f0164002901640038016401,
     0x03016600060166000a0166000f016600180166001f0166002901660038016601),
    (0x03016700060167000a0167000f016700180167001f0167002901670038016701,
     0x03016800060168000a0168000f016800180168001f0168002901680038016801),
    (0x01016c0016016c0101016d0016016d0101016e0016016e010101700016017001,
     0x0101720016017201010175001601750100013a01000142010001430100014401),
    (0x02016c0009016c0017016c0028016c0102016d0009016d0017016d0028016d01,
     0x02016e0009016e0017016e0028016e0102017000090170001701700028017001),
    (0x03016c0006016c000a016c000f016c0018016c001f016c0029016c0038016c01,
     0x03016d0006016d000a016d000f016d0018016d001f016d0029016d0038016d01),
    (0x03016e0006016e000a016e000f016e0018016e001f016e0029016e0038016e01,
     0x03017000060170000a0170000f017000180170001f0170002901700038017001),
    (0x0201720009017200170172002801720102017500090175001701750028017501,
     0x01013a0016013a01010142001601420101014300160143010101440016014401),
    (0x03017200060172000a0172000f017200180172001f0172002901720038017201,
     0x03017500060175000a0175000f017500180175001f0175002901750038017501),
    (0x02013a0009013a0017013a0028013a0102014200090142001701420028014201,
     0x0201430009014300170143002801430102014400090144001701440028014401),
    (0x03013a0006013a000a013a000f013a0018013a001f013a0029013a0038013a01,
     0x03014200060142000a0142000f014200180142001f0142002901420038014201),
    (0x03014300060143000a0143000f014300180143001f0143002901430038014301,
     0x03014400060144000a0144000f014400180144001f0144002901440038014401),
    (0x2c0000002d0000002f0000003000000033000000340000003600000037000000,
     0x3b0000003c0000003e0000003f00000042000000430000004500000048000001),
    (0x000145010001460100014701000148010001490100014a0100014b0100014c01,
     0x00014d0100014e0100014f010001500100015101000152010001530100015401),
    (0x0101450016014501010146001601460101014700160147010101480016014801,
     0x010149001601490101014a0016014a0101014b0016014b0101014c0016014c01),
    (0x0201450009014500170145002801450102014600090146001701460028014601,
     0x0201470009014700170147002801470102014800090148001701480028014801),
    (0x03014500060145000a0145000f014500180145001f0145002901450038014501,
     0x03014600060146000a0146000f014600180146001f0146002901460038014601),
    (0x03014700060147000a0147000f014700180147001f0147002901470038014701,
     0x03014800060148000a0148000f014800180148001f0148002901480038014801),
    (0x0201490009014900170149002801490102014a0009014a0017014a0028014a01,
     0x02014b0009014b0017014b0028014b0102014c0009014c0017014c0028014c01),
    (0x03014900060149000a0149000f014900180149001f0149002901490038014901,
     0x03014a0006014a000a014a000f014a0018014a001f014a0029014a0038014a01),
    (0x03014b0006014b000a014b000f014b0018014b001f014b0029014b0038014b01,
     0x03014c0006014c000a014c000f014c0018014c001f014c0029014c0038014c01),
    (0x01014d0016014d0101014e0016014e0101014f0016014f010101500016015001,
     0x0101510016015101010152001601520101015300160153010101540016015401),
    (0x02014d0009014d0017014d0028014d0102014e0009014e0017014e0028014e01,
     0x02014f0009014f0017014f0028014f0102015000090150001701500028015001),
    (0x03014d0006014d000a014d000f014d0018014d001f014d0029014d0038014d01,
     0x03014e0006014e000a014e000f014e0018014e001f014e0029014e0038014e01),
    (0x03014f0006014f000a014f000f014f0018014f001f014f0029014f0038014f01,
     0x03015000060150000a0150000f015000180150001f0150002901500038015001),
    (0x0201510009015100170151002801510102015200090152001701520028015201,
     0x0201530009015300170153002801530102015400090154001701540028015401),
    (0x03015100060151000a0151000f015100180151001f0151002901510038015101,
     0x03015200060152000a0152000f015200180152001f0152002901520038015201),
    (0x03015300060153000a0153000f015300180153001f0153002901530038015301,
     0x03015400060154000a0154000f015400180154001f0154002901540038015401),
    (0x0001550100015601000157010001590100016a0100016b010001710100017601,
     0x00017701000178010001790100017a014600000047000000490000004a000001),
    (0x0101550016015501010156001601560101015700160157010101590016015901,
     0x01016a0016016a0101016b0016016b0101017100160171010101760016017601),
    (0x0201550009015500170155002801550102015600090156001701560028015601,
     0x0201570009015700170157002801570102015900090159001701590028015901),
    (0x03015500060155000a0155000f015500180155001f0155002901550038015501,
     0x03015600060156000a0156000f015600180156001f0156002901560038015601),
    (0x03015700060157000a0157000f015700180157001f0157002901570038015701,
     0x03015900060159000a0159000f015900180159001f0159002901590038015901),
    (0x02016a0009016a0017016a0028016a0102016b0009016b0017016b0028016b01,
     0x0201710009017100170171002801710102017600090176001701760028017601),
    (0x03016a0006016a000a016a000f016a0018016a001f016a0029016a0038016a01,
     0x03016b0006016b000a016b000f016b0018016b001f016b0029016b0038016b01),
    (0x03017100060171000a0171000f017100180171001f0171002901710038017101,
     0x03017600060176000a0176000f017600180176001f0176002901760038017601),
    (0x01017700160177010101780016017801010179001601790101017a0016017a01,
     0x0001260100012a0100012c0100013b010001580100015a014b0000004e000001),
    (0x0201770009017700170177002801770102017800090178001701780028017801,
     0x0201790009017900170179002801790102017a0009017a0017017a0028017a01),
    (0x03017700060177000a0177000f017700180177001f0177002901770038017701,
     0x03017800060178000a0178000f017800180178001f0178002901780038017801),
    (0x03017900060179000a0179000f017900180179001f0179002901790038017901,
     0x03017a0006017a000a017a000f017a0018017a001f017a0029017a0038017a01),
    (0x010126001601260101012a0016012a0101012c0016012c0101013b0016013b01,
     0x010158001601580101015a0016015a014c0000004d0000004f00000051000001),
    (0x0201260009012600170126002801260102012a0009012a0017012a0028012a01,
     0x02012c0009012c0017012c0028012c0102013b0009013b0017013b0028013b01),
    (0x03012600060126000a0126000f012600180126001f0126002901260038012601,
     0x03012a0006012a000a012a000f012a0018012a001f012a0029012a0038012a01),
    (0x03012c0006012c000a012c000f012c0018012c001f012c0029012c0038012c01,
     0x03013b0006013b000a013b000f013b0018013b001f013b0029013b0038013b01),
    (0x0201580009015800170158002801580102015a0009015a0017015a0028015a01,
     0x0001210100012201000128010001290100013f01500000005200000054000001),
    (0x03015800060158000a0158000f015800180158001f0158002901580038015801,
     0x03015a0006015a000a015a000f015a0018015a001f015a0029015a0038015a01),
    (0x0101210016012101010122001601220101012800160128010101290016012901,
     0x01013f0016013f010001270100012b0100017c01530000005500000058000001),
    (0x0201210009012100170121002801210102012200090122001701220028012201,
     0x0201280009012800170128002801280102012900090129001701290028012901),
    (0x03012100060121000a0121000f012100180121001f0121002901210038012101,
     0x03012200060122000a0122000f012200180122001f0122002901220038012201),
    (0x03012800060128000a0128000f012800180128001f0128002901280038012801,
     0x03012900060129000a0129000f012900180129001f0129002901290038012901),
    (0x02013f0009013f0017013f0028013f01010127001601270101012b0016012b01,
     0x01017c0016017c010001230100013e015600000057000000590000005a000001),
    (0x03013f0006013f000a013f000f013f0018013f001f013f0029013f0038013f01,
     0x0201270009012700170127002801270102012b0009012b0017012b0028012b01),
    (0x03012700060127000a0127000f012700180127001f0127002901270038012701,
     0x03012b0006012b000a012b000f012b0018012b001f012b0029012b0038012b01),
    (0x02017c0009017c0017017c0028017c01010123001601230101013e0016013e01,
     0x00010001000124010001400100015b0100015d0100017e015b0000005c000001),
    (0x03017c0006017c000a017c000f017c0018017c001f017c0029017c0038017c01,
     0x0201230009012300170123002801230102013e0009013e0017013e0028013e01),
    (0x03012300060123000a0123000f012300180123001f0123002901230038012301,
     0x03013e0006013e000a013e000f013e0018013e001f013e0029013e0038013e01),
    (0x01010000160100010101240016012401010140001601400101015b0016015b01,
     0x01015d0016015d0101017e0016017e0100015e0100017d015d0000005e000001),
    (0x0201000009010000170100002801000102012400090124001701240028012401,
     0x0201400009014000170140002801400102015b0009015b0017015b0028015b01),
    (0x03010000060100000a0100000f010000180100001f0100002901000038010001,
     0x03012400060124000a0124000f012400180124001f0124002901240038012401),
    (0x03014000060140000a0140000f014000180140001f0140002901400038014001,
     0x03015b0006015b000a015b000f015b0018015b001f015b0029015b0038015b01),
    (0x02015d0009015d0017015d0028015d0102017e0009017e0017017e0028017e01,
     0x01015e0016015e0101017d0016017d0100013c010001600100017b015f000001),
    (0x03015d0006015d000a015d000f015d0018015d001f015d0029015d0038015d01,
     0x03017e0006017e000a017e000f017e0018017e001f017e0029017e0038017e01),
    (0x02015e0009015e0017015e0028015e0102017d0009017d0017017d0028017d01,
     0x01013c0016013c01010160001601600101017b0016017b01600000006e000001),
    (0x03015e0006015e000a015e000f015e0018015e001f015e0029015e0038015e01,
     0x03017d0006017d000a017d000f017d0018017d001f017d0029017d0038017d01),
    (0x02013c0009013c0017013c0028013c0102016000090160001701600028016001,
     0x02017b0009017b0017017b0028017b0161000000650000006f00000085000001),
    (0x03013c0006013c000a013c000f013c0018013c001f013c0029013c0038013c01,
     0x03016000060160000a0160000f016000180160001f0160002901600038016001),
    (0x03017b0006017b000a017b000f017b0018017b001f017b0029017b0038017b01,
     0x6200000063000000660000006900000070000000770000008600000099000001),
    (0x00015c010001c3010001d0016400000067000000680000006a0000006b000000,
     0x7100000074000000780000007e000000870000008e0000009a000000a9000001),
    (0x01015c0016015c010101c3001601c3010101d0001601d0010001800100018201,
     0x000183010001a2010001b8010001c2010001e0010001e2016c0000006d000000),
    (0x02015c0009015c0017015c0028015c010201c3000901c3001701c3002801c301,
     0x0201d0000901d0001701d0002801d00101018000160180010101820016018201),
    (0x03015c0006015c000a015c000f015c0018015c001f015c0029015c0038015c01,
     0x0301c3000601c3000a01c3000f01c3001801c3001f01c3002901c3003801c301),
    (0x0301d0000601d0000a01d0000f01d0001801d0001f01d0002901d0003801d001,
     0x0201800009018000170180002801800102018200090182001701820028018201),
    (0x03018000060180000a0180000f018000180180001f0180002901800038018001,
     0x03018200060182000a0182000f018200180182001f0182002901820038018201),
    (0x01018300160183010101a2001601a2010101b8001601b8010101c2001601c201,
     0x0101e0001601e0010101e2001601e201000199010001a1010001a7010001ac01),
    (0x020183000901830017018300280183010201a2000901a2001701a2002801a201,
     0x0201b8000901b8001701b8002801b8010201c2000901c2001701c2002801c201),
    (0x03018300060183000a0183000f018300180183001f0183002901830038018301,
     0x0301a2000601a2000a01a2000f01a2001801a2001f01a2002901a2003801a201),
    (0x0301b8000601b8000a01b8000f01b8001801b8001f01b8002901b8003801b801,
     0x0301c2000601c2000a01c2000f01c2001801c2001f01c2002901c2003801c201),
    (0x0201e0000901e0001701e0002801e0010201e2000901e2001701e2002801e201,
     0x01019900160199010101a1001601a1010101a7001601a7010101ac001601ac01),
    (0x0301e0000601e0000a01e0000f01e0001801e0001f01e0002901e0003801e001,
     0x0301e2000601e2000a01e2000f01e2001801e2001f01e2002901e2003801e201),
    (0x020199000901990017019900280199010201a1000901a1001701a1002801a101,
     0x0201a7000901a7001701a7002801a7010201ac000901ac001701ac002801ac01),
    (0x03019900060199000a0199000f019900180199001f0199002901990038019901,
     0x0301a1000601a1000a01a1000f01a1001801a1001f01a1002901a1003801a101),
    (0x0301a7000601a7000a01a7000f01a7001801a7001f01a7002901a7003801a701,
     0x0301ac000601ac000a01ac000f01ac001801ac001f01ac002901ac003801ac01),
    (0x72000000730000007500000076000000790000007b0000007f00000082000000,
     0x880000008b0000008f000000920000009b000000a2000000aa000000b4000001),
    (0x0001b0010001b1010001b3010001d1010001d8010001d9010001e3010001e501,
     0x0001e6017a0000007c0000007d00000080000000810000008300000084000000),
    (0x0101b0001601b0010101b1001601b1010101b3001601b3010101d1001601d101,
     0x0101d8001601d8010101d9001601d9010101e3001601e3010101e5001601e501),
    (0x0201b0000901b0001701b0002801b0010201b1000901b1001701b1002801b101,
     0x0201b3000901b3001701b3002801b3010201d1000901d1001701d1002801d101),
    (0x0301b0000601b0000a01b0000f01b0001801b0001f01b0002901b0003801b001,
     0x0301b1000601b1000a01b1000f01b1001801b1001f01b1002901b1003801b101),
    (0x0301b3000601b3000a01b3000f01b3001801b3001f01b3002901b3003801b301,
     0x0301d1000601d1000a01d1000f01d1001801d1001f01d1002901d1003801d101),
    (0x0201d8000901d8001701d8002801d8010201d9000901d9001701d9002801d901,
     0x0201e3000901e3001701e3002801e3010201e5000901e5001701e5002801e501),
    (0x0301d8000601d8000a01d8000f01d8001801d8001f01d8002901d8003801d801,
     0x0301d9000601d9000a01d9000f01d9001801d9001f01d9002901d9003801d901),
    (0x0301e3000601e3000a01e3000f01e3001801e3001f01e3002901e3003801e301,
     0x0301e5000601e5000a01e5000f01e5001801e5001f01e5002901e5003801e501),
    (0x0101e6001601e601000181010001840100018501000186010001880100019201,
     0x00019a0100019c010001a0010001a3010001a4010001a9010001aa010001ad01),
    (0x0201e6000901e6001701e6002801e60101018100160181010101840016018401,
     0x0101850016018501010186001601860101018800160188010101920016019201),
    (0x0301e6000601e6000a01e6000f01e6001801e6001f01e6002901e6003801e601,
     0x0201810009018100170181002801810102018400090184001701840028018401),
    (0x03018100060181000a0181000f018100180181001f0181002901810038018101,
     0x03018400060184000a0184000f018400180184001f0184002901840038018401),
    (0x0201850009018500170185002801850102018600090186001701860028018601,
     0x0201880009018800170188002801880102019200090192001701920028019201),
    (0x03018500060185000a0185000f018500180185001f0185002901850038018501,
     0x03018600060186000a0186000f018600180186001f0186002901860038018601),
    (0x03018800060188000a0188000f018800180188001f0188002901880038018801,
     0x03019200060192000a0192000f019200180192001f0192002901920038019201),
    (0x01019a0016019a0101019c0016019c010101a0001601a0010101a3001601a301,
     0x0101a4001601a4010101a9001601a9010101aa001601aa010101ad001601ad01),
    (0x02019a0009019a0017019a0028019a0102019c0009019c0017019c0028019c01,
     0x0201a0000901a0001701a0002801a0010201a3000901a3001701a3002801a301),
    (0x03019a0006019a000a019a000f019a0018019a001f019a0029019a0038019a01,
     0x03019c0006019c000a019c000f019c0018019c001f019c0029019c0038019c01),
    (0x0301a0000601a0000a01a0000f01a0001801a0001f01a0002901a0003801a001,
     0x0301a3000601a3000a01a3000f01a3001801a3001f01a3002901a3003801a301),
    (0x0201a4000901a4001701a4002801a4010201a9000901a9001701a9002801a901,
     0x0201aa000901aa001701aa002801aa010201ad000901ad001701ad002801ad01),
    (0x0301a4000601a4000a01a4000f01a4001801a4001f01a4002901a4003801a401,
     0x0301a9000601a9000a01a9000f01a9001801a9001f01a9002901a9003801a901),
    (0x0301aa000601aa000a01aa000f01aa001801aa001f01aa002901aa003801aa01,
     0x0301ad000601ad000a01ad000f01ad001801ad001f01ad002901ad003801ad01),
    (0x890000008a0000008c0000008d00000090000000910000009300000096000000,
     0x9c0000009f000000a3000000a6000000ab000000ae000000b5000000be000001),
    (0x0001b2010001b5010001b9010001ba010001bb010001bd010001be010001c401,
     0x0001c6010001e4010001e8010001e90194000000950000009700000098000000),
    (0x0101b2001601b2010101b5001601b5010101b9001601b9010101ba001601ba01,
     0x0101bb001601bb010101bd001601bd010101be001601be010101c4001601c401),
    (0x0201b2000901b2001701b2002801b2010201b5000901b5001701b5002801b501,
     0x0201b9000901b9001701b9002801b9010201ba000901ba001701ba002801ba01),
    (0x0301b2000601b2000a01b2000f01b2001801b2001f01b2002901b2003801b201,
     0x0301b5000601b5000a01b5000f01b5001801b5001f01b5002901b5003801b501),
    (0x0301b9000601b9000a01b9000f01b9001801b9001f01b9002901b9003801b901,
     0x0301ba000601ba000a01ba000f01ba001801ba001f01ba002901ba003801ba01),
    (0x0201bb000901bb001701bb002801bb010201bd000901bd001701bd002801bd01,
     0x0201be000901be001701be002801be010201c4000901c4001701c4002801c401),
    (0x0301bb000601bb000a01bb000f01bb001801bb001f01bb002901bb003801bb01,
     0x0301bd000601bd000a01bd000f01bd001801bd001f01bd002901bd003801bd01),
    (0x0301be000601be000a01be000f01be001801be001f01be002901be003801be01,
     0x0301c4000601c4000a01c4000f01c4001801c4001f01c4002901c4003801c401),
    (0x0101c6001601c6010101e4001601e4010101e8001601e8010101e9001601e901,
     0x00010101000187010001890100018a0100018b0100018c0100018d0100018f01),
    (0x0201c6000901c6001701c6002801c6010201e4000901e4001701e4002801e401,
     0x0201e8000901e8001701e8002801e8010201e9000901e9001701e9002801e901),
    (0x0301c6000601c6000a01c6000f01c6001801c6001f01c6002901c6003801c601,
     0x0301e4000601e4000a01e4000f01e4001801e4001f01e4002901e4003801e401),
    (0x0301e8000601e8000a01e8000f01e8001801e8001f01e8002901e8003801e801,
     0x0301e9000601e9000a01e9000f01e9001801e9001f01e9002901e9003801e901),
    (0x01010100160101010101870016018701010189001601890101018a0016018a01,
     0x01018b0016018b0101018c0016018c0101018d0016018d0101018f0016018f01),
    (0x0201010009010100170101002801010102018700090187001701870028018701,
     0x0201890009018900170189002801890102018a0009018a0017018a0028018a01),
    (0x03010100060101000a0101000f010100180101001f0101002901010038010101,
     0x03018700060187000a0187000f018700180187001f0187002901870038018701),
    (0x03018900060189000a0189000f018900180189001f0189002901890038018901,
     0x03018a0006018a000a018a000f018a0018018a001f018a0029018a0038018a01),
    (0x02018b0009018b0017018b0028018b0102018c0009018c0017018c0028018c01,
     0x02018d0009018d0017018d0028018d0102018f0009018f0017018f0028018f01),
    (0x03018b0006018b000a018b000f018b0018018b001f018b0029018b0038018b01,
     0x03018c0006018c000a018c000f018c0018018c001f018c0029018c0038018c01),
    (0x03018d0006018d000a018d000f018d0018018d001f018d0029018d0038018d01,
     0x03018f0006018f000a018f000f018f0018018f001f018f0029018f0038018f01),
    (0x9d0000009e000000a0000000a1000000a4000000a5000000a7000000a8000000,
     0xac000000ad000000af000000b1000000b6000000b9000000bf000000cf000001),
    (0x000193010001950100019601000197010001980100019b0100019d0100019e01,
     0x0001a5010001a6010001a8010001ae010001af010001b4010001b6010001b701),
    (0x0101930016019301010195001601950101019600160196010101970016019701,
     0x010198001601980101019b0016019b0101019d0016019d0101019e0016019e01),
    (0x0201930009019300170193002801930102019500090195001701950028019501,
     0x0201960009019600170196002801960102019700090197001701970028019701),
    (0x03019300060193000a0193000f019300180193001f0193002901930038019301,
     0x03019500060195000a0195000f019500180195001f0195002901950038019501),
    (0x03019600060196000a0196000f019600180196001f0196002901960038019601,
     0x03019700060197000a0197000f019700180197001f0197002901970038019701),
    (0x0201980009019800170198002801980102019b0009019b0017019b0028019b01,
     0x02019d0009019d0017019d0028019d0102019e0009019e0017019e0028019e01),
    (0x03019800060198000a0198000f019800180198001f0198002901980038019801,
     0x03019b0006019b000a019b000f019b0018019b001f019b0029019b0038019b01),
    (0x03019d0006019d000a019d000f019d0018019d001f019d0029019d0038019d01,
     0x03019e0006019e000a019e000f019e0018019e001f019e0029019e0038019e01),
    (0x0101a5001601a5010101a6001601a6010101a8001601a8010101ae001601ae01,
     0x0101af001601af010101b4001601b4010101b6001601b6010101b7001601b701),
    (0x0201a5000901a5001701a5002801a5010201a6000901a6001701a6002801a601,
     0x0201a8000901a8001701a8002801a8010201ae000901ae001701ae002801ae01),
    (0x0301a5000601a5000a01a5000f01a5001801a5001f01a5002901a5003801a501,
     0x0301a6000601a6000a01a6000f01a6001801a6001f01a6002901a6003801a601),
    (0x0301a8000601a8000a01a8000f01a8001801a8001f01a8002901a8003801a801,
     0x0301ae000601ae000a01ae000f01ae001801ae001f01ae002901ae003801ae01),
    (0x0201af000901af001701af002801af010201b4000901b4001701b4002801b401,
     0x0201b6000901b6001701b6002801b6010201b7000901b7001701b7002801b701),
    (0x0301af000601af000a01af000f01af001801af001f01af002901af003801af01,
     0x0301b4000601b4000a01b4000f01b4001801b4001f01b4002901b4003801b401),
    (0x0301b6000601b6000a01b6000f01b6001801b6001f01b6002901b6003801b601,
     0x0301b7000601b7000a01b7000f01b7001801b7001f01b7002901b7003801b701),
    (0x0001bc010001bf010001c5010001e7010001ef01b0000000b2000000b3000000,
     0xb7000000b8000000ba000000bb000000c0000000c7000000d0000000df000001),
    (0x0101bc001601bc010101bf001601bf010101c5001601c5010101e7001601e701,
     0x0101ef001601ef010001090100018e0100019001000191010001940100019f01),
    (0x0201bc000901bc001701bc002801bc010201bf000901bf001701bf002801bf01,
     0x0201c5000901c5001701c5002801c5010201e7000901e7001701e7002801e701),
    (0x0301bc000601bc000a01bc000f01bc001801bc001f01bc002901bc003801bc01,
     0x0301bf000601bf000a01bf000f01bf001801bf001f01bf002901bf003801bf01),
    (0x0301c5000601c5000a01c5000f01c5001801c5001f01c5002901c5003801c501,
     0x0301e7000601e7000a01e7000f01e7001801e7001f01e7002901e7003801e701),
    (0x0201ef000901ef001701ef002801ef01010109001601090101018e0016018e01,
     0x01019000160190010101910016019101010194001601940101019f0016019f01),
    (0x0301ef000601ef000a01ef000f01ef001801ef001f01ef002901ef003801ef01,
     0x0201090009010900170109002801090102018e0009018e0017018e0028018e01),
    (0x03010900060109000a0109000f010900180109001f0109002901090038010901,
     0x03018e0006018e000a018e000f018e0018018e001f018e0029018e0038018e01),
    (0x0201900009019000170190002801900102019100090191001701910028019101,
     0x0201940009019400170194002801940102019f0009019f0017019f0028019f01),
    (0x03019000060190000a0190000f019000180190001f0190002901900038019001,
     0x03019100060191000a0191000f019100180191001f0191002901910038019101),
    (0x03019400060194000a0194000f019400180194001f0194002901940038019401,
     0x03019f0006019f000a019f000f019f0018019f001f019f0029019f0038019f01),
    (0x0001ab010001ce010001d7010001e1010001ec010001ed01bc000000bd000000,
     0xc1000000c4000000c8000000cb000000d1000000d8000000e0000000ee000001),
    (0x0101ab001601ab010101ce001601ce010101d7001601d7010101e1001601e101,
     0x0101ec001601ec010101ed001601ed010001c7010001cf010001ea010001eb01),
    (0x0201ab000901ab001701ab002801ab010201ce000901ce001701ce002801ce01,
     0x0201d7000901d7001701d7002801d7010201e1000901e1001701e1002801e101),
    (0x0301ab000601ab000a01ab000f01ab001801ab001f01ab002901ab003801ab01,
     0x0301ce000601ce000a01ce000f01ce001801ce001f01ce002901ce003801ce01),
    (0x0301d7000601d7000a01d7000f01d7001801d7001f01d7002901d7003801d701,
     0x0301e1000601e1000a01e1000f01e1001801e1001f01e1002901e1003801e101),
    (0x0201ec000901ec001701ec002801ec010201ed000901ed001701ed002801ed01,
     0x0101c7001601c7010101cf001601cf010101ea001601ea010101eb001601eb01),
    (0x0301ec000601ec000a01ec000f01ec001801ec001f01ec002901ec003801ec01,
     0x0301ed000601ed000a01ed000f01ed001801ed001f01ed002901ed003801ed01),
    (0x0201c7000901c7001701c7002801c7010201cf000901cf001701cf002801cf01,
     0x0201ea000901ea001701ea002801ea010201eb000901eb001701eb002801eb01),
    (0x0301c7000601c7000a01c7000f01c7001801c7001f01c7002901c7003801c701,
     0x0301cf000601cf000a01cf000f01cf001801cf001f01cf002901cf003801cf01),
    (0x0301ea000601ea000a01ea000f01ea001801ea001f01ea002901ea003801ea01,
     0x0301eb000601eb000a01eb000f01eb001801eb001f01eb002901eb003801eb01),
    (0xc2000000c3000000c5000000c6000000c9000000ca000000cc000000cd000000,
     0xd2000000d5000000d9000000dc000000e1000000e7000000ef000000f6000001),
    (0x0001c0010001c1010001c8010001c9010001ca010001cd010001d2010001d501,
     0x0001da010001db010001ee010001f0010001f2010001f3010001ff01ce000000),
    (0x0101c0001601c0010101c1001601c1010101c8001601c8010101c9001601c901,
     0x0101ca001601ca010101cd001601cd010101d2001601d2010101d5001601d501),
    (0x0201c0000901c0001701c0002801c0010201c1000901c1001701c1002801c101,
     0x0201c8000901c8001701c8002801c8010201c9000901c9001701c9002801c901),
    (0x0301c0000601c0000a01c0000f01c0001801c0001f01c0002901c0003801c001,
     0x0301c1000601c1000a01c1000f01c1001801c1001f01c1002901c1003801c101),
    (0x0301c8000601c8000a01c8000f01c8001801c8001f01c8002901c8003801c801,
     0x0301c9000601c9000a01c9000f01c9001801c9001f01c9002901c9003801c901),
    (0x0201ca000901ca001701ca002801ca010201cd000901cd001701cd002801cd01,
     0x0201d2000901d2001701d2002801d2010201d5000901d5001701d5002801d501),
    (0x0301ca000601ca000a01ca000f01ca001801ca001f01ca002901ca003801ca01,
     0x0301cd000601cd000a01cd000f01cd001801cd001f01cd002901cd003801cd01),
    (0x0301d2000601d2000a01d2000f01d2001801d2001f01d2002901d2003801d201,
     0x0301d5000601d5000a01d5000f01d5001801d5001f01d5002901d5003801d501),
    (0x0101da001601da010101db001601db010101ee001601ee010101f0001601f001,
     0x0101f2001601f2010101f3001601f3010101ff001601ff010001cb010001cc01),
    (0x0201da000901da001701da002801da010201db000901db001701db002801db01,
     0x0201ee000901ee001701ee002801ee010201f0000901f0001701f0002801f001),
    (0x0301da000601da000a01da000f01da001801da001f01da002901da003801da01,
     0x0301db000601db000a01db000f01db001801db001f01db002901db003801db01),
    (0x0301ee000601ee000a01ee000f01ee001801ee001f01ee002901ee003801ee01,
     0x0301f0000601f0000a01f0000f01f0001801f0001f01f0002901f0003801f001),
    (0x0201f2000901f2001701f2002801f2010201f3000901f3001701f3002801f301,
     0x0201ff000901ff001701ff002801ff010101cb001601cb010101cc001601cc01),
    (0x0301f2000601f2000a01f2000f01f2001801f2001f01f2002901f2003801f201,
     0x0301f3000601f3000a01f3000f01f3001801f3001f01f3002901f3003801f301),
    (0x0301ff000601ff000a01ff000f01ff001801ff001f01ff002901ff003801ff01,
     0x0201cb000901cb001701cb002801cb010201cc000901cc001701cc002801cc01),
    (0x0301cb000601cb000a01cb000f01cb001801cb001f01cb002901cb003801cb01,
     0x0301cc000601cc000a01cc000f01cc001801cc001f01cc002901cc003801cc01),
    (0xd3000000d4000000d6000000d7000000da000000db000000dd000000de000000,
     0xe2000000e4000000e8000000eb000000f0000000f3000000f7000000fa000001),
    (0x0001d3010001d4010001d6010001dd010001de010001df010001f1010001f401,
     0x0001f5010001f6010001f7010001f8010001fa010001fb010001fc010001fd01),
    (0x0101d3001601d3010101d4001601d4010101d6001601d6010101dd001601dd01,
     0x0101de001601de010101df001601df010101f1001601f1010101f4001601f401),
    (0x0201d3000901d3001701d3002801d3010201d4000901d4001701d4002801d401,
     0x0201d6000901d6001701d6002801d6010201dd000901dd001701dd002801dd01),
    (0x0301d3000601d3000a01d3000f01d3001801d3001f01d3002901d3003801d301,
     0x0301d4000601d4000a01d4000f01d4001801d4001f01d4002901d4003801d401),
    (0x0301d6000601d6000a01d6000f01d6001801d6001f01d6002901d6003801d601,
     0x0301dd000601dd000a01dd000f01dd001801dd001f01dd002901dd003801dd01),
    (0x0201de000901de001701de002801de010201df000901df001701df002801df01,
     0x0201f1000901f1001701f1002801f1010201f4000901f4001701f4002801f401),
    (0x0301de000601de000a01de000f01de001801de001f01de002901de003801de01,
     0x0301df000601df000a01df000f01df001801df001f01df002901df003801df01),
    (0x0301f1000601f1000a01f1000f01f1001801f1001f01f1002901f1003801f101,
     0x0301f4000601f4000a01f4000f01f4001801f4001f01f4002901f4003801f401),
    (0x0101f5001601f5010101f6001601f6010101f7001601f7010101f8001601f801,
     0x0101fa001601fa010101fb001601fb010101fc001601fc010101fd001601fd01),
    (0x0201f5000901f5001701f5002801f5010201f6000901f6001701f6002801f601,
     0x0201f7000901f7001701f7002801f7010201f8000901f8001701f8002801f801),
    (0x0301f5000601f5000a01f5000f01f5001801f5001f01f5002901f5003801f501,
     0x0301f6000601f6000a01f6000f01f6001801f6001f01f6002901f6003801f601),
    (0x0301f7000601f7000a01f7000f01f7001801f7001f01f7002901f7003801f701,
     0x0301f8000601f8000a01f8000f01f8001801f8001f01f8002901f8003801f801),
    (0x0201fa000901fa001701fa002801fa010201fb000901fb001701fb002801fb01,
     0x0201fc000901fc001701fc002801fc010201fd000901fd001701fd002801fd01),
    (0x0301fa000601fa000a01fa000f01fa001801fa001f01fa002901fa003801fa01,
     0x0301fb000601fb000a01fb000f01fb001801fb001f01fb002901fb003801fb01),
    (0x0301fc000601fc000a01fc000f01fc001801fc001f01fc002901fc003801fc01,
     0x0301fd000601fd000a01fd000f01fd001801fd001f01fd002901fd003801fd01),
    (0x0001fe01e3000000e5000000e6000000e9000000ea000000ec000000ed000000,
     0xf1000000f2000000f4000000f5000000f8000000f9000000fb000000fc000001),
    (0x0101fe001601fe01000102010001030100010401000105010001060100010701,
     0x0001080100010b0100010c0100010e0100010f01000110010001110100011201),
    (0x0201fe000901fe001701fe002801fe0101010200160102010101030016010301,
     0x0101040016010401010105001601050101010600160106010101070016010701),
    (0x0301fe000601fe000a01fe000f01fe001801fe001f01fe002901fe003801fe01,
     0x0201020009010200170102002801020102010300090103001701030028010301),
    (0x03010200060102000a0102000f010200180102001f0102002901020038010201,
     0x03010300060103000a0103000f010300180103001f0103002901030038010301),
    (0x0201040009010400170104002801040102010500090105001701050028010501,
     0x0201060009010600170106002801060102010700090107001701070028010701),
    (0x03010400060104000a0104000f010400180104001f0104002901040038010401,
     0x03010500060105000a0105000f010500180105001f0105002901050038010501),
    (0x03010600060106000a0106000f010600180106001f0106002901060038010601,
     0x03010700060107000a0107000f010700180107001f0107002901070038010701),
    (0x010108001601080101010b0016010b0101010c0016010c0101010e0016010e01,
     0x01010f0016010f01010110001601100101011100160111010101120016011201),
    (0x0201080009010800170108002801080102010b0009010b0017010b0028010b01,
     0x02010c0009010c0017010c0028010c0102010e0009010e0017010e0028010e01),
    (0x03010800060108000a0108000f010800180108001f0108002901080038010801,
     0x03010b0006010b000a010b000f010b0018010b001f010b0029010b0038010b01),
    (0x03010c0006010c000a010c000f010c0018010c001f010c0029010c0038010c01,
     0x03010e0006010e000a010e000f010e0018010e001f010e0029010e0038010e01),
    (0x02010f0009010f0017010f0028010f0102011000090110001701100028011001,
     0x0201110009011100170111002801110102011200090112001701120028011201),
    (0x03010f0006010f000a010f000f010f0018010f001f010f0029010f0038010f01,
     0x03011000060110000a0110000f011000180110001f0110002901100038011001),
    (0x03011100060111000a0111000f011100180111001f0111002901110038011101,
     0x03011200060112000a0112000f011200180112001f0112002901120038011201),
    (0x00011301000114010001150100011701000118010001190100011a0100011b01,
     0x00011c0100011d0100011e0100011f0100017f010001dc010001f901fd000001),
    (0x0101130016011301010114001601140101011500160115010101170016011701,
     0x0101180016011801010119001601190101011a0016011a0101011b0016011b01),
    (0x0201130009011300170113002801130102011400090114001701140028011401,
     0x0201150009011500170115002801150102011700090117001701170028011701),
    (0x03011300060113000a0113000f011300180113001f0113002901130038011301,
     0x03011400060114000a0114000f011400180114001f0114002901140038011401),
    (0x03011500060115000a0115000f011500180115001f0115002901150038011501,
     0x03011700060117000a0117000f011700180117001f0117002901170038011701),
    (0x0201180009011800170118002801180102011900090119001701190028011901,
     0x02011a0009011a0017011a0028011a0102011b0009011b0017011b0028011b01),
    (0x03011800060118000a0118000f011800180118001f0118002901180038011801,
     0x03011900060119000a0119000f011900180119001f0119002901190038011901),
    (0x03011a0006011a000a011a000f011a0018011a001f011a0029011a0038011a01,
     0x03011b0006011b000a011b000f011b0018011b001f011b0029011b0038011b01),
    (0x01011c0016011c0101011d0016011d0101011e0016011e0101011f0016011f01,
     0x01017f0016017f010101dc001601dc010101f9001601f901fe000000ff000001),
    (0x02011c0009011c0017011c0028011c0102011d0009011d0017011d0028011d01,
     0x02011e0009011e0017011e0028011e0102011f0009011f0017011f0028011f01),
    (0x03011c0006011c000a011c000f011c0018011c001f011c0029011c0038011c01,
     0x03011d0006011d000a011d000f011d0018011d001f011d0029011d0038011d01),
    (0x03011e0006011e000a011e000f011e0018011e001f011e0029011e0038011e01,
     0x03011f0006011f000a011f000f011f0018011f001f011f0029011f0038011f01),
    (0x02017f0009017f0017017f0028017f010201dc000901dc001701dc002801dc01,
     0x0201f9000901f9001701f9002801f90100010a0100010d0100011601fa000000),
    (0x03017f0006017f000a017f000f017f0018017f001f017f0029017f0038017f01,
     0x0301dc000601dc000a01dc000f01dc001801dc001f01dc002901dc003801dc01),
    (0x0301f9000601f9000a01f9000f01f9001801f9001f01f9002901f9003801f901,
     0x01010a0016010a0101010d0016010d010101160016011601fc000000fc000000),
    (0x02010a0009010a0017010a0028010a0102010d0009010d0017010d0028010d01,
     0x02011600090116001701160028011601fd000000fd000000fd000000fd000000),
    (0x03010a0006010a000a010a000f010a0018010a001f010a0029010a0038010a01,
     0x03010d0006010d000a010d000f010d0018010d001f010d0029010d0038010d01),
    (0x03011600060116000a0116000f011600180116001f0116002901160038011601,
     0xff000000ff000000ff000000ff000000ff000000ff000000ff000000ff000000)]

/-- The number of a code in a row. -/
def huffRowEntry (row : ℕ × ℕ) (bits : ℕ) : ℕ :=
  if bits < 8 then row.1 / 2 ^ (32 * (7 - bits)) % 2 ^ 32
  else row.2 / 2 ^ (32 * (15 - bits)) % 2 ^ 32

def huffCodeOf (entry : ℕ) : HuffCode where
  next := UInt8.ofNat (entry / 2 ^ 24)
  emit := entry / 2 ^ 16 % 2 ^ 8 != 0
  sym := UInt8.ofNat (entry / 2 ^ 8)
  ending := entry % 2 ^ 8 != 0

def huffDecodeCodes (state bits : UInt8) : HuffCode :=
  huffCodeOf (huffRowEntry (huffDecodeRows.getD state.toNat (0, 0)) bits.toNat)

/-! ## The encoder -/

def huffTable (lower : Bool) : List (ℕ × ℕ) :=
  if lower then huffEncodeTableLc else huffEncodeTable

/-- `ngx_http_huff_encode_buf`: the bytes of a word. -/
def huffEncodeBuf (buf : ℕ) : List UInt8 :=
  [UInt8.ofNat (buf >>> 56), UInt8.ofNat (buf >>> 48), UInt8.ofNat (buf >>> 40),
    UInt8.ofNat (buf >>> 32), UInt8.ofNat (buf >>> 24), UInt8.ofNat (buf >>> 16),
    UInt8.ofNat (buf >>> 8), UInt8.ofNat buf]

/-- The variables of `ngx_http_huff_encode`; `dst` is what has been written, of the
length `hlen`. -/
structure HuffEncode where
  dst : List UInt8
  buf : ℕ
  pending : ℕ

/-- The loop over `src`: the variables behind it, or what has been written when there
is no place for another word. -/
def huffEncodeLoop (table : List (ℕ × ℕ)) (len : ℕ) :
    List UInt8 → HuffEncode → Except (List UInt8) HuffEncode
  | [], s => .ok s
  | ch :: src, s =>
      let next := table.getD ch.toNat (0, 0)
      let code := next.1
      let pending := s.pending + next.2
      if pending < 64 then
        huffEncodeLoop table len src
          { s with buf := s.buf ||| code <<< (64 - pending) % 2 ^ 64, pending := pending }
      else if len ≤ s.dst.length + 8 then .error s.dst
      else
        let pending := pending - 64
        huffEncodeLoop table len src
          { dst := s.dst ++ huffEncodeBuf (s.buf ||| code >>> pending)
            buf := if pending ≠ 0 then code <<< (64 - pending) % 2 ^ 64 else 0
            pending := pending }

/-- The last bytes: `n` bytes of `buf`. -/
def huffEncodeRest : ℕ → ℕ → List UInt8
  | 0, _ => []
  | n + 1, buf => UInt8.ofNat (buf >>> (8 * n)) :: huffEncodeRest n buf

/-- `ngx_http_huff_encode`: what has been written, and the result. -/
def ngxHttpHuffEncode (lower : Bool) (src : List UInt8) : List UInt8 × ℕ :=
  match huffEncodeLoop (huffTable lower) src.length src ⟨[], 0, 0⟩ with
  | .error dst => (dst, 0)
  | .ok s =>
      if s.pending = 0 then (s.dst, s.dst.length)
      else
        let buf := s.buf ||| (2 ^ 64 - 1) >>> s.pending
        let pending := (s.pending + 7) / 8 * 8
        if src.length ≤ s.dst.length + pending / 8 then (s.dst, 0)
        else
          let dst := s.dst ++ huffEncodeRest (pending / 8) (buf >>> (64 - pending))
          (dst, dst.length)

end MultiversionBalancer.Http2
